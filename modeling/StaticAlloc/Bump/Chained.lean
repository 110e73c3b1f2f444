import StaticAlloc.Bump.Exhaustion

/-!
# Chains of levels

A thread that allocates at the level its last success returned, and succeeds,
knows that nobody else was there in between.  The reason is that the counter never
comes back to a value it has left: if it stands where the last block ended, then
no block has been handed out since.

`Stacked` reads the log as a stack of blocks.  Every block lies at the placement
for the level the blocks below it add up to, and no other entry moves the level.
So the level of a part of the log is determined (`Stacked.unique`), it only grows
with further entries, and where it has not grown no block was added
(`Stacked.append`).

`Chained` is a list of successful calls each of which was made at the level the
one before returned.  `chained_blocks` finds their blocks next to each other in
the stack, each at the end of the one before, rounded up to its own alignment.
That is how a `#[repr(C)]` struct is laid out: counted from an address with all
the alignments, the blocks are at the offsets of the members (`ptr_of_fieldOffsets`).
-/

namespace StaticAlloc
namespace Bump

open Toolkit

variable {w : ℕ} {ι : Type*} {S : Storage w} {c₀ level n : ℕ} {log : List (Entry ι w)}

/-! ## The log as a stack of blocks -/

/-- The blocks of a log, latest first. -/
abbrev blocksOf (log : List (Entry ι w)) : List Block := log.filterMap Entry.block?

/-- The log of an arena that started at `c₀` and stands at `level`. -/
inductive Stacked (S : Storage w) (c₀ : ℕ) : ℕ → List (Entry ι w) → Prop where
  | start : Stacked S c₀ c₀ []
  | skip {level : ℕ} {log : List (Entry ι w)} {x : Entry ι w} (below : Stacked S c₀ level log)
      (none : x.block? = none) : Stacked S c₀ level (x :: log)
  | grant {level : ℕ} {log : List (Entry ι w)} {t : ι} {c : Call w} {l : Layout w}
      (below : Stacked S c₀ level log) (tries : c.Tries l level level) (size_pos : 0 < l.size) :
      Stacked S c₀ (placement S l level + l.size)
        (⟨t, c, c.succeed ⟨S.base + placement S l level, placement S l level + l.size⟩⟩ :: log)

theorem block?_succeed {t : ι} {c : Call w} {l : Layout w} {a : Allocation} (hc : c.Requests l)
    (hs : 0 < l.size) :
    Entry.block? (⟨t, c, c.succeed a⟩ : Entry ι w) = some ⟨⟨a.ptr, l.size⟩, l.align⟩ := by
  have hsize : c.size ≠ 0 := by
    rw [hc.1]
    omega
  rw [← hc.1, ← hc.2]
  cases c <;> exact if_neg hsize

/-- The level is determined by the log. -/
theorem Stacked.unique (h : Stacked S c₀ n log) (h' : Stacked S c₀ level log) : n = level := by
  induction h generalizing level with
  | start =>
    cases h'
    rfl
  | skip below hnone ih =>
    cases h' with
    | skip below' => exact ih below'
    | grant below' htries hs =>
      rw [block?_succeed htries.requests hs] at hnone
      exact absurd hnone (by simp)
  | @grant level₁ log t c l below htries hs ih =>
    generalize hx : (⟨t, c, c.succeed ⟨S.base + placement S l level₁,
      placement S l level₁ + l.size⟩⟩ : Entry ι w) = x at h'
    cases h' with
    | skip below' hnone =>
      rw [← hx, block?_succeed htries.requests hs] at hnone
      exact absurd hnone (by simp)
    | @grant level₂ log t' c' l' below' htries' hs' =>
      obtain ⟨-, rfl, -⟩ := Entry.mk.inj hx
      obtain rfl := ih below'
      obtain ⟨hsize, halign⟩ := htries.requests
      obtain ⟨hsize', halign'⟩ := htries'.requests
      unfold placement
      rw [← hsize, ← halign, ← hsize', ← halign']

/-- All blocks end at or below the level. -/
theorem Stacked.stop_le (h : Stacked S c₀ n log) :
    ∀ b ∈ blocksOf log, b.span.stop ≤ S.base + n := by
  induction h with
  | start => exact fun b hb => absurd hb List.not_mem_nil
  | skip below hnone ih =>
    rw [blocksOf, List.filterMap_cons_none hnone]
    exact ih
  | @grant level log t c l below htries hs ih =>
    rw [blocksOf, List.filterMap_cons_some (block?_succeed htries.requests hs)]
    intro b hb
    have hle : level ≤ placement S l level := le_placement
    rcases List.mem_cons.mp hb with rfl | hb
    · exact le_of_eq (Nat.add_assoc _ _ _)
    · have := ih b hb
      omega

/-- **What further entries do.**  They raise the level, or add no block; and the
blocks they add lie at or behind the level they found. -/
theorem Stacked.append {new : List (Entry ι w)} (h : Stacked S c₀ n (new ++ log)) :
    ∃ level, Stacked S c₀ level log ∧ level ≤ n ∧ (level = n → blocksOf new = []) ∧
      ∀ b ∈ blocksOf new, S.base + level ≤ b.span.start := by
  induction new generalizing n with
  | nil => exact ⟨n, h, le_rfl, fun _ => rfl, fun b hb => absurd hb List.not_mem_nil⟩
  | cons x new ih =>
    rw [List.cons_append] at h
    cases h with
    | skip below hnone =>
      obtain ⟨level, hlevel, hle, hsame, hbehind⟩ := ih below
      rw [blocksOf, List.filterMap_cons_none hnone]
      exact ⟨level, hlevel, hle, hsame, hbehind⟩
    | @grant m _ t c l below htries hs =>
      obtain ⟨level, hlevel, hle, hsame, hbehind⟩ := ih below
      have hm : m ≤ placement S l m := le_placement
      refine ⟨level, hlevel, by omega, fun heq => absurd heq (by omega), ?_⟩
      rw [blocksOf, List.filterMap_cons_some (block?_succeed htries.requests hs)]
      intro b hb
      rcases List.mem_cons.mp hb with rfl | hb
      · show S.base + level ≤ S.base + placement S l m
        omega
      · exact hbehind b hb

/-- The entry of a successful `get_at` lies at its own level, at the placement. -/
theorem Stacked.split {t : ι} {V : Ty w} {a : Allocation} (h : Stacked S c₀ n log)
    (hV : 0 < V.size) (hmem : (⟨t, .leakAt V level, .granted a⟩ : Entry ι w) ∈ log) :
    ∃ later earlier, log = later ++ ⟨t, .leakAt V level, .granted a⟩ :: earlier ∧
      Stacked S c₀ level earlier ∧
      a = ⟨S.base + placement S V.toLayout level, placement S V.toLayout level + V.size⟩ ∧
      Stacked S c₀ a.level (⟨t, .leakAt V level, .granted a⟩ :: earlier) := by
  obtain ⟨later, earlier, rfl⟩ := List.append_of_mem hmem
  obtain ⟨m, hm, -⟩ := h.append
  have hblock : (⟨t, .leakAt V level, .granted a⟩ : Entry ι w).block? ≠ none := by
    have hsize : ¬ V.size = 0 := by omega
    unfold Entry.block?
    rw [if_neg (show ¬ (Call.leakAt V level).size = 0 from hsize)]
    simp [Reply.ptr?]
  generalize hx : (⟨t, .leakAt V level, .granted a⟩ : Entry ι w) = x at hm hblock
  cases hm with
  | skip below hnone => exact absurd hnone hblock
  | @grant level' _ t' c l below htries hs =>
    obtain ⟨rfl, rfl, ha⟩ := Entry.mk.inj hx
    have hbody : (Call.leakAt V level).body = .once V.toLayout level :=
      if_neg (by omega : ¬ V.size = 0)
    rcases htries with ⟨hb, -⟩ | hb
    · exact absurd (hbody.symm.trans hb) (by simp)
    · obtain ⟨rfl, rfl⟩ := Body.once.inj (hbody.symm.trans hb)
      have ha' := Reply.granted.inj ha
      refine ⟨later, earlier, rfl, below, ha', ?_⟩
      rw [ha']
      exact .grant below (Or.inr hbody) hs

/-! ## Chains of levels -/

/-- A successful call: the type and what was returned. -/
abbrev Member (w : ℕ) := Ty w × Allocation

/-- The block of a successful call. -/
def Member.block (m : Member w) : Block := ⟨⟨m.2.ptr, m.1.size⟩, m.1.align⟩

/-- Thread `t` made these calls, each at the level the one before returned, and
all of them succeeded. -/
def Chained (t : ι) (log : List (Entry ι w)) : Level → List (Member w) → Prop
  | _, [] => True
  | level, m :: members => ⟨t, .leakAt m.1 level, .granted m.2⟩ ∈ log ∧ 0 < m.1.size ∧
    Chained t log m.2.level members

/-- Each member starts where the one before ends, rounded up to its alignment. -/
def Consecutive : ℕ → List (Member w) → Prop
  | _, [] => True
  | addr, m :: members => m.2.ptr = roundUp addr m.1.align ∧
    Consecutive (m.2.ptr + m.1.size) members

/-- Where the last member ends. -/
def endOf : ℕ → List (Member w) → ℕ
  | addr, [] => addr
  | _, m :: members => endOf (m.2.ptr + m.1.size) members

theorem endOf_eq {addr : ℕ} {members : List (Member w)} {last : Member w}
    (h : members.getLast? = some last) : endOf addr members = last.2.ptr + last.1.size := by
  induction members generalizing addr with
  | nil => exact absurd h (by simp)
  | cons m members ih =>
    cases members with
    | nil =>
      obtain rfl : m = last := Option.some.inj h
      rfl
    | cons m' members =>
      rw [List.getLast?_cons_cons] at h
      show endOf (m.2.ptr + m.1.size) (m' :: members) = _
      exact ih h

/-- **The blocks of a chain lie next to each other in the stack.** -/
theorem chained_blocks {t : ι} (members : List (Member w)) {later earlier : List (Entry ι w)}
    (h : Stacked S c₀ n (later ++ earlier)) (hlevel : Stacked S c₀ level earlier)
    (hchain : Chained t (later ++ earlier) level members) :
    Consecutive (S.base + level) members ∧
      ∃ later' mid top, later = later' ++ mid ∧
        blocksOf mid = (members.map Member.block).reverse ∧
        Stacked S c₀ top (mid ++ earlier) ∧ S.base + top = endOf (S.base + level) members := by
  induction members generalizing level later earlier with
  | nil =>
    exact ⟨trivial, later, [], level, (List.append_nil _).symm, rfl, hlevel, rfl⟩
  | cons m members ih =>
    obtain ⟨V, a⟩ := m
    obtain ⟨hmem, hV, hrest⟩ := hchain
    dsimp only at hmem hV hrest
    obtain ⟨above, below, hlog, hbelow, ha, hafter⟩ := h.split hV hmem
    have hrise : level < a.level := by
      have hle : level ≤ placement S V.toLayout level := le_placement
      rw [ha]
      show level < placement S V.toLayout level + V.size
      omega
    -- the part of the log below this entry contains all of `earlier`
    have hsplit : ∃ between, later = above ++ ⟨t, .leakAt V level, .granted a⟩ :: between ∧
        below = between ++ earlier := by
      rcases List.append_eq_append_iff.mp hlog with ⟨x, hx, hy⟩ | ⟨x, hx, hy⟩
      · exfalso
        rw [hy] at hlevel
        obtain ⟨m', hm', hle, -⟩ := hlevel.append
        have := hm'.unique hafter
        omega
      · cases x with
        | nil =>
          exfalso
          rw [List.nil_append] at hy
          rw [← hy] at hlevel
          have := hlevel.unique hafter
          omega
        | cons x between =>
          obtain ⟨rfl, rfl⟩ := List.cons.inj hy
          exact ⟨between, hx, rfl⟩
    obtain ⟨between, rfl, rfl⟩ := hsplit
    -- and no block more, since the level is the same
    have hnone : blocksOf between = [] := by
      obtain ⟨m', hm', -, hsame, -⟩ := hbelow.append
      exact hsame (hm'.unique hlevel)
    have hend : S.base + a.level = a.ptr + V.size := by
      rw [ha]
      exact (Nat.add_assoc _ _ _).symm
    have hstart : a.ptr = roundUp (S.base + level) V.align := by
      rw [ha]
      exact (Nat.add_assoc _ _ _).symm
    have hblock : (⟨t, .leakAt V level, .granted a⟩ : Entry ι w).block? =
        some (Member.block (V, a)) := if_neg (by show ¬ V.size = 0; omega)
    rw [List.append_assoc, List.cons_append] at h hrest
    obtain ⟨hcons, later', mid, top, rfl, hmid, htop, hendOf⟩ := ih h hafter hrest
    rw [hend] at hcons hendOf
    refine ⟨⟨hstart, hcons⟩, later', mid ++ ⟨t, .leakAt V level, .granted a⟩ :: between, top, ?_,
      ?_, ?_, hendOf⟩
    · rw [List.append_assoc]
    · rw [blocksOf, List.filterMap_append, List.filterMap_cons_some hblock]
      show blocksOf mid ++ _ :: blocksOf between = _
      rw [hmid, hnone, List.map_cons, List.reverse_cons]
    · rw [List.append_assoc, List.cons_append]
      exact htop

/-! ## Struct members -/

variable {addr : ℕ} {members : List (Member w)}

theorem Consecutive.isChain (h : Consecutive addr members) :
    members.IsChain fun x y => y.2.ptr = roundUp (x.2.ptr + x.1.size) y.1.align := by
  induction members generalizing addr with
  | nil => exact .nil
  | cons m members ih =>
    cases members with
    | nil => exact .singleton m
    | cons m' members => exact .cons_cons h.2.1 (ih h.2)

/-- The first member is aligned, so the members may be counted from its own address. -/
theorem Consecutive.from_first {first : Member w} (h : Consecutive addr (first :: members)) :
    first.1.align ∣ first.2.ptr ∧ Consecutive first.2.ptr (first :: members) := by
  have halign : first.1.align ∣ first.2.ptr := by
    rw [h.1]
    exact dvd_roundUp first.1.align_pos
  exact ⟨halign, (roundUp_eq_self first.1.align_pos halign).symm, h.2⟩

/-- Counted from an address with all the alignments, behind a record of `l`, the
members are at the offsets of further fields. -/
theorem Consecutive.ptr_of_fieldOffsets {l : Layout w} {offsets : List ℕ}
    (h : Consecutive (addr + l.size) members) (haddr : ∀ m ∈ members, m.1.align ∣ addr)
    (hoffsets : l.fieldOffsets (members.map fun m => m.1.toLayout) = some offsets) :
    members.map (fun m => m.2.ptr) = offsets.map (addr + ·) := by
  induction members generalizing l offsets with
  | nil =>
    obtain rfl : [] = offsets := Option.some.inj hoffsets
    rfl
  | cons m members ih =>
    rw [List.map_cons, Layout.fieldOffsets] at hoffsets
    obtain ⟨⟨l', offset⟩, hextend, hoffsets⟩ := Option.bind_eq_some_iff.mp hoffsets
    obtain ⟨offsets', hoffsets', hcons⟩ := Option.bind_eq_some_iff.mp hoffsets
    obtain rfl : offset :: offsets' = offsets := Option.some.inj hcons
    obtain ⟨-, -, hsize, -⟩ := Layout.extend_some hextend
    have hptr : m.2.ptr = addr + offset := by
      rw [h.1, roundUp_add_of_dvd (haddr m List.mem_cons_self), Layout.extend_offset hextend]
    have hrest : Consecutive (addr + l'.size) members := by
      have h' := h.2
      rwa [hptr, Nat.add_assoc, ← hsize] at h'
    rw [List.map_cons, List.map_cons, hptr,
      ih hrest (fun x hx => haddr x (List.mem_cons_of_mem m hx)) hoffsets']

/-- Members of one type lie without gaps. -/
theorem Consecutive.ptr_of_replicate {V : Ty w} (h : Consecutive addr members)
    (hV : ∀ m ∈ members, m.1 = V) (haddr : V.align ∣ addr) (i : ℕ) (hi : i < members.length) :
    members[i].2.ptr = addr + i * V.size := by
  induction members generalizing addr i with
  | nil => exact absurd hi (Nat.not_lt_zero i)
  | cons m members ih =>
    have hm : m.1 = V := hV m List.mem_cons_self
    have hptr : m.2.ptr = addr := by
      rw [h.1, hm]
      exact roundUp_eq_self V.align_pos haddr
    cases i with
    | zero => rw [Nat.zero_mul]; exact hptr
    | succ i =>
      have hrest := h.2
      rw [hptr, hm] at hrest
      have := ih hrest (fun x hx => hV x (List.mem_cons_of_mem m hx))
        (Nat.dvd_add haddr V.stride) i (Nat.lt_of_succ_lt_succ hi)
      rw [List.getElem_cons_succ, this, Nat.add_mul, Nat.one_mul]
      omega

/-! ## Every interleaving -/

/-- The level in a successful reply. -/
def Reply.level? : Reply → Option Level
  | granted a => some a.level
  | slice _ _ level => some level
  | _ => none

/-- A reply carries the level of the arena right after it. -/
theorem Returns.level_le {c : Call w} {r : Reply} {m : Level} (h : Returns S level c r n)
    (hr : r.level? = some m) : m ≤ n := by
  cases h with
  | granted htries hs hfits =>
    cases c with
    | alloc => exact absurd hr (by simp [Call.succeed, Reply.level?])
    | _ => exact (Option.some.inj hr).ge
  | exhausted => cases c <;> exact absurd hr (by simp [Call.exhausted, Reply.level?])
  | observed =>
    cases c with
    | get | getSlice => exact (Option.some.inj hr).ge
    | getAt V expected =>
      rw [Call.observed] at hr
      split at hr
      · exact absurd hr (by simp [Reply.level?])
      · exact (Option.some.inj hr).ge
    | _ => exact absurd hr (by simp [Call.observed, Reply.level?])
  | _ => exact absurd hr (by simp [Reply.level?])

/-- A call that gets a pointer for its bytes is the one that moves the level. -/
theorem Returns.quiet {t : ι} {c : Call w} {r : Reply} (h : Returns S level c r n)
    (hr : r.ptr? = none) : n = level ∧ (⟨t, c, r⟩ : Entry ι w).block? = none := by
  refine ⟨?_, ?_⟩
  · cases h with
    | granted => cases c <;> exact absurd hr (by simp [Call.succeed, Reply.ptr?])
    | _ => rfl
  · unfold Entry.block?
    rw [hr]
    exact ite_self _

/-- A reply either hands out its block over the level it found, or no block. -/
theorem Returns.stacked {t : ι} {c : Call w} {r : Reply} (h : Returns S level c r n)
    (hlog : Stacked S c₀ level log) : Stacked S c₀ n (⟨t, c, r⟩ :: log) := by
  cases h with
  | granted htries hs hfits => exact .grant hlog htries hs
  | exhausted => exact .skip hlog (by cases c <;> exact ite_self _)
  | observed hb =>
    have hserves := c.serves_body
    rw [hb] at hserves
    exact .skip hlog (if_pos hserves)
  | _ => exact .skip hlog (ite_self _)

/-- A mismatch reports the level of the arena, and that is not the one given. -/
theorem Returns.mismatched {V : Ty w} {given observed : Level}
    (h : Returns S level (.leakAt V given) (.failed (.mismatch observed)) n) :
    observed = level ∧ given ≠ level := by
  generalize hr : Reply.failed (.mismatch observed) = r at h
  cases h with
  | @mismatch l e hb hne =>
    obtain rfl : observed = level := Failure.mismatch.inj (Reply.failed.inj hr)
    refine ⟨rfl, ?_⟩
    rw [Call.body] at hb
    split at hb
    · exact absurd hb (by simp)
    · obtain ⟨-, rfl⟩ := Body.once.inj hb
      exact hne
  | observed hb =>
    rw [Call.observed] at hr
    split at hr
    · rename_i hne
      exact ⟨Failure.mismatch.inj (Reply.failed.inj hr), Ne.symm hne⟩
    · exact absurd hr (by simp)
  | _ => exact absurd hr (by simp [Call.succeed, Call.exhausted])

namespace Arena

variable [DecidableEq ι]

/-- The log explains the level, and every level returned is one the arena has
reached. -/
structure Explained (S : Storage w) (c₀ : ℕ) (σ : Arena ι w) : Prop where
  tracked : σ.Tracked S
  stacked : Stacked S c₀ σ.consumed σ.log
  levels : ∀ x ∈ σ.log, ∀ m, x.reply.level? = some m → m ≤ σ.consumed

theorem step_explained {σ : Arena ι w} (h : σ.Explained S c₀) (t : ι) :
    (σ.step S t).Explained S c₀ := by
  obtain ⟨htracked, hstep⟩ := step_returns h.tracked t
  rcases hstep with ⟨hc, hl⟩ | ⟨c, r, hlogs⟩
  · refine ⟨htracked, ?_, ?_⟩
    · rw [hc, hl]
      exact h.stacked
    · rw [hc, hl]
      exact h.levels
  · refine ⟨htracked, ?_, ?_⟩
    · rw [hlogs.log]
      exact hlogs.returns.stacked h.stacked
    · rw [hlogs.log]
      intro x hx m hm
      rcases List.mem_cons.mp hx with rfl | hx
      · exact hlogs.returns.level_le hm
      · exact (h.levels x hx m hm).trans hlogs.returns.le

theorem run_explained (schedule : List ι) {σ : Arena ι w} (h : σ.Explained S c₀) :
    (σ.run S schedule).Explained S c₀ := by
  induction schedule generalizing σ with
  | nil => exact h
  | cons t schedule ih => exact ih (step_explained h t)

omit [DecidableEq ι] in
theorem start_explained (program : ι → List (Call w)) (consumed : ℕ) :
    (start program consumed).Explained S consumed where
  tracked _ := trivial
  stacked := .start
  levels _ hx := absurd hx List.not_mem_nil

omit [DecidableEq ι] in
/-- The blocks of a chain are consecutive, and no other block lies among them. -/
theorem Explained.chained {σ : Arena ι w} (h : σ.Explained S c₀) {t : ι} {level : Level}
    {first : Member w} {members : List (Member w)}
    (hchain : Chained t σ.log level (first :: members)) :
    Consecutive (S.base + level) (first :: members) ∧
      ∃ later earlier,
        σ.blocks = later ++ ((first :: members).map Member.block).reverse ++ earlier ∧
        ∀ last ∈ (first :: members).getLast?, ∀ b ∈ later ++ earlier,
          Disjoint b.span.addresses (Set.Ico first.2.ptr (last.2.ptr + last.1.size)) := by
  obtain ⟨above, earlier, hlog, hlevel, -, -⟩ := h.stacked.split hchain.2.1 hchain.1
  rw [List.append_cons] at hlog
  have hstacked := h.stacked
  rw [hlog] at hstacked hchain
  obtain ⟨hcons, later, mid, top, hlater, hmid, htop, hend⟩ :=
    chained_blocks (first :: members) hstacked hlevel hchain
  refine ⟨hcons, blocksOf later, blocksOf earlier, ?_, ?_⟩
  · show blocksOf σ.log = _
    rw [hlog, hlater, ← hmid, blocksOf, List.filterMap_append, List.filterMap_append]
  · intro last hlast b hb
    refine Span.disjoint_Ico ?_
    rcases List.mem_append.mp hb with hb | hb
    · rw [hlater, List.append_assoc] at hstacked
      obtain ⟨top', htop', -, -, hbehind⟩ := hstacked.append
      obtain rfl := htop'.unique htop
      rw [← endOf_eq hlast, ← hend]
      exact Or.inr (hbehind b hb)
    · have hstart : S.base + level ≤ first.2.ptr := by
        rw [hcons.1]
        exact le_roundUp
      exact Or.inl ((hlevel.stop_le b hb).trans hstart)

/-- A mismatch reports a level above any that was reached before. -/
theorem Explained.mismatch_lt {σ : Arena ι w} (h : σ.Explained S c₀) {u : ι} {V : Ty w}
    {given observed : Level} (hgiven : given ≤ σ.consumed)
    (hlog : (σ.step S u).log = ⟨u, .leakAt V given, .failed (.mismatch observed)⟩ :: σ.log) :
    given < observed := by
  obtain ⟨hobserved, hne⟩ := (logs_of_log h.tracked hlog).returns.mismatched
  rw [hobserved]
  exact lt_of_le_of_ne hgiven hne

/-- A step that returns no pointer changes neither the level nor the blocks. -/
theorem Explained.quiet {σ : Arena ι w} (h : σ.Explained S c₀) {u : ι}
    (hnone : ∀ x, (σ.step S u).log = x :: σ.log → x.reply.ptr? = none) :
    (σ.step S u).consumed = σ.consumed ∧ (σ.step S u).blocks = σ.blocks := by
  rcases (step_returns h.tracked u).2 with ⟨hc, hl⟩ | ⟨c, r, hlogs⟩
  · exact ⟨hc, by rw [blocks, hl]; rfl⟩
  · obtain ⟨hc, hblock⟩ := hlogs.returns.quiet (t := u) (hnone _ hlogs.log)
    refine ⟨hc, ?_⟩
    rw [blocks, hlogs.log, List.filterMap_cons_none hblock]
    rfl

/-- **Allocations chained by their levels are contiguous.**  In every interleaving
of any threads, let thread `t` have made successful calls each at the level the one
before returned.  Then each block starts at the end of the one before, rounded up
to its own alignment, and no byte of any other block lies between the start of the
first and the end of the last.  Counted from a first address with all the
alignments the blocks are at the offsets of a `#[repr(C)]` struct, and blocks of
one type are packed without gaps.

A mismatch at a level that was the arena's, or was returned with a success, reports
a higher one; and a step that returns no pointer changes neither the level nor the
blocks. -/
theorem level_chain (S : Storage w) (program : ι → List (Call w)) (consumed : ℕ)
    (schedule : List ι) (t : ι) :
    let σ := (start program consumed).run S schedule
    (∀ level members, Chained t σ.log level members →
      (members.IsChain fun x y => y.2.ptr = roundUp (x.2.ptr + x.1.size) y.1.align) ∧
      (∃ later earlier, σ.blocks = later ++ (members.map Member.block).reverse ++ earlier ∧
        ∀ first ∈ members.head?, ∀ last ∈ members.getLast?, ∀ b ∈ later ++ earlier,
          Disjoint b.span.addresses (Set.Ico first.2.ptr (last.2.ptr + last.1.size))) ∧
      ∀ first ∈ members.head?,
        (∀ offsets, (∀ m ∈ members, m.1.align ∣ first.2.ptr) →
          Layout.reprC (members.map fun m => m.1.toLayout) = some offsets →
          members.map (fun m => m.2.ptr) = offsets.map (first.2.ptr + ·)) ∧
        ∀ V, (∀ m ∈ members, m.1 = V) → ∀ i (hi : i < members.length),
          members[i].2.ptr = first.2.ptr + i * V.size) ∧
    (∀ u V given observed,
      (σ.step S u).log = ⟨u, .leakAt V given, .failed (.mismatch observed)⟩ :: σ.log →
      ((∃ x ∈ σ.log, x.reply.level? = some given) ∨
        ∃ k, ((start program consumed).run S (schedule.take k)).consumed = given) →
      given < observed) ∧
    ∀ u, (∀ x, (σ.step S u).log = x :: σ.log → x.reply.ptr? = none) →
      (σ.step S u).consumed = σ.consumed ∧ (σ.step S u).blocks = σ.blocks := by
  intro σ
  have hσ : σ.Explained S consumed := run_explained schedule (start_explained program consumed)
  refine ⟨?_, ?_, ?_⟩
  · intro level members hchain
    cases members with
    | nil => exact ⟨.nil, ⟨σ.blocks, [], by simp, by simp⟩, by simp⟩
    | cons first members =>
      obtain ⟨hcons, later, earlier, hblocks, hapart⟩ := hσ.chained hchain
      obtain ⟨halign, hfirst⟩ := hcons.from_first
      refine ⟨hcons.isChain, ⟨later, earlier, hblocks, ?_⟩, ?_⟩
      · intro x hx
        obtain rfl : first = x := Option.some.inj hx
        exact hapart
      · intro x hx
        obtain rfl : first = x := Option.some.inj hx
        refine ⟨fun offsets hdvd hoffsets => ?_, fun V hV i hi => ?_⟩
        · exact Consecutive.ptr_of_fieldOffsets (l := (Ty.unit w).toLayout) hfirst hdvd hoffsets
        · rw [hV first List.mem_cons_self] at halign
          exact hfirst.ptr_of_replicate hV halign i hi
  · intro u V given observed hlog hgiven
    refine hσ.mismatch_lt ?_ hlog
    rcases hgiven with ⟨x, hx, hlevel⟩ | ⟨k, rfl⟩
    · exact hσ.levels x hx given hlevel
    · exact run_take_le program consumed schedule k
  · intro u hnone
    exact hσ.quiet hnone

/-- A `u16` and a word behind it, while another thread asks for a word in between
and at last gets one. -/
theorem level_chain_two_members :
    let members : List (Member 64) := [(Ty.halfWord, ⟨4096, 2⟩), (Ty.word, ⟨4104, 16⟩)]
    let σ := (start (fun t : Bool => bif t then [.leakAt Ty.halfWord 0, .leakAt Ty.word 2]
      else [.tryAlloc Ty.word.toLayout]) 0).run ⟨4096, 32, page_pos, by decide⟩
        [true, false, true, false, true, true, false, false]
    σ.log.length = 3 ∧
      ∃ later earlier, σ.blocks = later ++ (members.map Member.block).reverse ++ earlier ∧
        ∀ first ∈ members.head?, ∀ last ∈ members.getLast?, ∀ b ∈ later ++ earlier,
          Disjoint b.span.addresses (Set.Ico first.2.ptr (last.2.ptr + last.1.size)) := by
  refine ⟨rfl, ?_⟩
  have h := level_chain (w := 64) ⟨4096, 32, page_pos, by decide⟩
    (fun t : Bool => bif t then [.leakAt Ty.halfWord 0, .leakAt Ty.word 2]
      else [.tryAlloc Ty.word.toLayout]) 0 [true, false, true, false, true, true, false, false] true
  exact (h.1 0 [(Ty.halfWord, ⟨4096, 2⟩), (Ty.word, ⟨4104, 16⟩)]
    ⟨.tail _ (.tail _ (.head _)), by decide, .tail _ (.head _), by decide, trivial⟩).2.1

end Arena
end Bump
end StaticAlloc
