import StaticAlloc.Bump.Safety
import StaticAlloc.Library.Bytes

/-!
# Every block is a memory of its own

The users of a shared arena write to the blocks they were given (`leak` moves a value
into its block before it hands out the reference), and all of them write to one memory.
They cannot tell: the arena refines a system in which every block has a memory that
nobody else can reach (`blocks_isolated`).  The reason is the invariant of the arena,
that no two blocks share a byte.

The other end of the invariant is that nobody writes behind the level.  So what was true
of every byte of the arena at the beginning is true of every byte of a block when it
is handed out.  `Bump::zeroed()` makes an arena of which every byte is zero; a byte
of one of its blocks is zero until its own user writes to it (`reads_explained`).
-/

namespace StaticAlloc
namespace Bump

open Toolkit

variable {w : ℕ} {ι : Type*} {β : Type} {S : Storage w} {P : β → Prop}

/-! ## The two systems -/

/-- The `i`-th block that was handed out, in the order of the grants. -/
def Arena.block? (σ : Arena ι w) (i : ℕ) : Option Block := σ.blocks.reverse[i]?

/-- What the users of an arena do: threads take their steps, and the `i`-th block is
written and read through its reference. -/
inductive Deed (ι : Type*) (β : Type) where
  | step (t : ι)
  | store (i k : ℕ) (b : β)
  /-- The byte that was read is part of the label. -/
  | load (i k : ℕ) (b : β)

/-- An arena and its bytes. -/
structure Shared (ι : Type*) (w : ℕ) (β : Type) where
  arena : Arena ι w
  bytes : Bytes β

/-- An arena whose blocks have memories of their own. -/
structure Isolated (ι : Type*) (w : ℕ) (β : Type) where
  arena : Arena ι w
  /-- The bytes of the `i`-th block. -/
  own : ℕ → ℕ → β

variable [DecidableEq ι]

/-- The shared arena with its memory.  At the beginning every byte of it is one of
`P`: any byte, or zero. -/
def shared (S : Storage w) (P : β → Prop) : Machine (Shared ι w β) (Deed ι β) where
  init σ := (Arena.machine S).init σ.arena ∧
    ∀ p, S.base ≤ p → p < S.base + S.len → P (σ.bytes p)
  step σ d τ :=
    match d with
    | .step t => τ = { σ with arena := σ.arena.step S t }
    | .store i k b => ∃ block, σ.arena.block? i = some block ∧ k < block.span.size ∧
        τ = { σ with bytes := σ.bytes.store (block.span.start + k) b }
    | .load i k b => ∃ block, σ.arena.block? i = some block ∧ k < block.span.size ∧
        σ.bytes (block.span.start + k) = b ∧ τ = σ

/-- Separate memories.  A block that is handed out holds bytes of `P`. -/
def isolated (S : Storage w) (P : β → Prop) : Machine (Isolated ι w β) (Deed ι β) where
  init σ := (Arena.machine S).init σ.arena
  step σ d τ :=
    match d with
    | .step t => τ.arena = σ.arena.step S t ∧
        ∀ i, (i < σ.arena.blocks.length → τ.own i = σ.own i) ∧
          (σ.arena.blocks.length ≤ i → i < τ.arena.blocks.length → ∀ k, P (τ.own i k))
    | .store i k b => ∃ block, σ.arena.block? i = some block ∧ k < block.span.size ∧
        τ = { σ with own := Function.update σ.own i (Function.update (σ.own i) k b) }
    | .load i k b => ∃ block, σ.arena.block? i = some block ∧ k < block.span.size ∧
        σ.own i k = b ∧ τ = σ

/-! ## The refinement -/

omit [DecidableEq ι] in
theorem Arena.block?_eq_some {σ : Arena ι w} {i : ℕ} {b : Block} (h : σ.block? i = some b) :
    i < σ.blocks.length ∧ b ∈ σ.blocks := by
  obtain ⟨hi, -⟩ := List.getElem?_eq_some_iff.mp h
  exact ⟨by simpa using hi, List.mem_reverse.mp (List.mem_of_getElem? h)⟩

omit [DecidableEq ι] in
/-- The blocks of two numbers share no byte. -/
theorem Arena.Invariant.apart {σ : Arena ι w} (h : σ.Invariant S) {i j : ℕ} {b c : Block}
    (hb : σ.block? i = some b) (hc : σ.block? j = some c) (hne : i ≠ j) :
    Disjoint b.span.addresses c.span.addresses := by
  have hpair : σ.blocks.reverse.Pairwise fun b b' =>
      Disjoint b.span.addresses b'.span.addresses :=
    List.pairwise_reverse.mpr (h.disjoint.imp fun hd => hd.symm)
  obtain ⟨hi, rfl⟩ := List.getElem?_eq_some_iff.mp hb
  obtain ⟨hj, rfl⟩ := List.getElem?_eq_some_iff.mp hc
  rcases Nat.lt_or_gt_of_ne hne with hlt | hgt
  · exact List.pairwise_iff_getElem.mp hpair i j hi hj hlt
  · exact (List.pairwise_iff_getElem.mp hpair j i hj hi hgt).symm

/-- The two systems look the same: the memory of a block holds the bytes of the block,
and no byte behind the level was written. -/
structure Agree (S : Storage w) (P : β → Prop) (σ : Shared ι w β) (π : Isolated ι w β) :
    Prop where
  arena : π.arena = σ.arena
  invariant : σ.arena.Invariant S
  bytes : ∀ i block, σ.arena.block? i = some block → ∀ k < block.span.size,
    σ.bytes (block.span.start + k) = π.own i k
  unused : ∀ p, S.base + σ.arena.consumed ≤ p → p < S.base + S.len → P (σ.bytes p)

section

variable {σ : Shared ι w β} {π : Isolated ι w β} {i k : ℕ} {b : β} {block : Block}

/-- A step that hands out a block. -/
theorem Agree.grants (h : Agree S P σ π) {t : ι} {l : Layout w} {a : Attempt}
    (hg : Arena.Grants S σ.arena (σ.arena.step S t) l a) :
    ∃ π', (isolated S P).step π (.step t) π' ∧
      Agree S P { σ with arena := σ.arena.step S t } π' := by
  have hsound := hg.sound
  have hpos := hsound.size_pos
  have hle := hsound.le_atAligned
  have hnew := hsound.newConsumed_eq
  have htop := hsound.newConsumed_le
  have hexp := hg.expected
  have hunused : ∀ q, q < l.size → P (σ.bytes (S.base + a.atAligned + q)) := by
    intro q hq
    exact h.unused _ (by omega) (by omega)
  -- the bytes that the new block happens to hold; behind its end the first one serves
  obtain ⟨fresh, hfresh, hP⟩ : ∃ fresh : ℕ → β,
      (∀ q, q < l.size → fresh q = σ.bytes (S.base + a.atAligned + q)) ∧ ∀ q, P (fresh q) := by
    refine ⟨fun q => if q < l.size then σ.bytes (S.base + a.atAligned + q)
      else σ.bytes (S.base + a.atAligned), fun q hq => if_pos hq, fun q => ?_⟩
    by_cases hq : q < l.size
    · simp only [if_pos hq]
      exact hunused q hq
    · simp only [if_neg hq]
      exact hunused 0 hpos
  have hlen : (σ.arena.step S t).blocks.length = σ.arena.blocks.length + 1 := by
    rw [hg.blocks, List.length_cons]
  refine ⟨⟨σ.arena.step S t, Function.update π.own σ.arena.blocks.length fresh⟩,
    ⟨by rw [h.arena], fun j => ⟨?_, ?_⟩⟩, rfl, Arena.step_invariant h.invariant t, ?_, ?_⟩
  · intro hj
    rw [h.arena] at hj
    exact Function.update_of_ne (Nat.ne_of_lt hj) _ _
  · intro hj hj' q
    have hj'' : j < (σ.arena.step S t).blocks.length := hj'
    rw [h.arena] at hj
    obtain rfl : j = σ.arena.blocks.length := by omega
    show P (Function.update π.own _ fresh _ q)
    rw [Function.update_self]
    exact hP q
  · intro j block hblock q hq
    show σ.bytes _ = Function.update π.own _ fresh j q
    have hblock' : (σ.arena.blocks.reverse ++ [⟨⟨S.base + a.atAligned, l.size⟩, l.align⟩])[j]? =
        some block := by
      rw [← List.reverse_cons, ← hg.blocks]
      exact hblock
    rcases Nat.lt_or_ge j σ.arena.blocks.length with hj | hj
    · rw [List.getElem?_append_left (by simpa using hj)] at hblock'
      rw [Function.update_of_ne (Nat.ne_of_lt hj)]
      exact h.bytes j block hblock' q hq
    · rw [List.getElem?_append_right (by simpa using hj), List.length_reverse] at hblock'
      obtain ⟨hj', rfl⟩ := List.getElem?_eq_some_iff.mp hblock'
      obtain rfl : j = σ.arena.blocks.length := by
        rw [List.length_singleton] at hj'
        omega
      have hget : ([⟨⟨S.base + a.atAligned, l.size⟩, l.align⟩] : List Block)[
          σ.arena.blocks.length - σ.arena.blocks.length] =
          ⟨⟨S.base + a.atAligned, l.size⟩, l.align⟩ := List.getElem_singleton hj'
      rw [hget] at hq ⊢
      rw [Function.update_self, hfresh q hq]
  · intro p hp hp'
    refine h.unused p ?_ hp'
    have : S.base + (σ.arena.step S t).consumed ≤ p := hp
    rw [hg.consumed] at this
    omega

/-- A step of a thread. -/
theorem Agree.step (h : Agree S P σ π) (t : ι) :
    ∃ π', (isolated S P).step π (.step t) π' ∧
      Agree S P { σ with arena := σ.arena.step S t } π' := by
  obtain ⟨-, hq | ⟨l, a, hg⟩⟩ := Arena.step_cases h.invariant.placed t
  · refine ⟨⟨σ.arena.step S t, π.own⟩, ⟨by rw [h.arena], fun j => ⟨fun _ => rfl, ?_⟩⟩, rfl,
      Arena.step_invariant h.invariant t, ?_, ?_⟩
    · intro hj hj'
      rw [h.arena, ← hq.blocks] at hj
      exact absurd hj' (Nat.not_lt.mpr hj)
    · intro j block hblock q hlt
      refine h.bytes j block ?_ q hlt
      have : (σ.arena.step S t).blocks.reverse[j]? = some block := hblock
      rwa [hq.blocks] at this
    · intro p hp
      have : S.base + (σ.arena.step S t).consumed ≤ p := hp
      rw [hq.consumed] at this
      exact h.unused p this
  · exact h.grants hg

omit [DecidableEq ι] in
/-- A store changes one byte of one block. -/
theorem Agree.store (h : Agree S P σ π) (hblock : σ.arena.block? i = some block)
    (hk : k < block.span.size) (b : β) :
    Agree S P { σ with bytes := σ.bytes.store (block.span.start + k) b }
      { π with own := Function.update π.own i (Function.update (π.own i) k b) } where
  arena := h.arena
  invariant := h.invariant
  bytes := by
    intro j c hc q hq
    show (σ.bytes.store _ b) _ = Function.update π.own _ _ j q
    by_cases hj : j = i
    · subst hj
      obtain rfl : c = block := Option.some.inj (hc.symm.trans hblock)
      rw [Function.update_self, Bytes.store]
      by_cases hqk : q = k
      · rw [hqk, if_pos rfl, Function.update_self]
      · rw [if_neg (by omega), Function.update_of_ne hqk]
        exact h.bytes j c hc q hq
    · have hapart := h.invariant.apart hc hblock hj
      have hne : c.span.start + q ≠ block.span.start + k := by
        intro heq
        refine Set.disjoint_left.mp hapart (Span.mem_addresses.mpr ⟨Nat.le_add_right _ q, ?_⟩)
          (Span.mem_addresses.mpr ⟨?_, ?_⟩)
        · exact Nat.add_lt_add_left hq _
        · rw [heq]
          exact Nat.le_add_right _ _
        · rw [heq]
          exact Nat.add_lt_add_left hk _
      rw [Function.update_of_ne hj, Bytes.store, if_neg hne]
      exact h.bytes j c hc q hq
  unused := by
    intro p hp hp'
    have hbelow := (h.invariant.below block (Arena.block?_eq_some hblock).2).stop_le
    have hne : p ≠ block.span.start + k := by
      have : S.base + σ.arena.consumed ≤ p := hp
      have : block.span.stop = block.span.start + block.span.size := rfl
      omega
    show P ((σ.bytes.store _ b) p)
    rw [Bytes.store, if_neg hne]
    exact h.unused p hp hp'

end

/-- **The simulation.** -/
theorem agree_simulation (S : Storage w) (P : β → Prop) :
    Simulation (shared (ι := ι) S P) (isolated S P) (Agree S P) where
  init := by
    rintro σ ⟨⟨program, consumed, hc, harena⟩, hbytes⟩
    refine ⟨⟨σ.arena, fun _ => σ.bytes⟩, ⟨program, consumed, hc, harena⟩, rfl, ?_, ?_, ?_⟩
    · rw [harena]
      exact Arena.start_invariant program hc
    · intro i block hblock
      rw [harena] at hblock
      exact absurd hblock (by simp [Arena.block?, Arena.blocks, Arena.start])
    · exact fun p hp hp' => hbytes p (by omega) hp'
  step := by
    intro σ d σ' π _ h hstep
    cases d with
    | step t =>
      obtain rfl : σ' = _ := hstep
      exact h.step t
    | store i k b =>
      obtain ⟨block, hblock, hk, rfl⟩ := hstep
      exact ⟨_, ⟨block, by rw [h.arena]; exact hblock, hk, rfl⟩, h.store hblock hk b⟩
    | load i k b =>
      obtain ⟨block, hblock, hk, hb, rfl⟩ := hstep
      refine ⟨π, ⟨block, by rw [h.arena]; exact hblock, hk, ?_, rfl⟩, h⟩
      rw [← h.bytes i block hblock k hk]
      exact hb

/-- **Every block is a memory of its own.**  Whatever the threads and the users of the
blocks do to a shared arena, in any order, and whatever they read, could be done and
read in the same order if every block had a memory that nobody else can reach. -/
theorem blocks_isolated {σ₀ σ : Shared ι w β} {run : List (Shared ι w β × Deed ι β × Shared ι w β)}
    (h₀ : (shared S P).init σ₀) (h : (shared S P).Run σ₀ run σ) :
    ∃ (π₀ π : Isolated ι w β) (run' : List (Isolated ι w β × Deed ι β × Isolated ι w β)),
      (isolated S P).init π₀ ∧ (isolated S P).Run π₀ run' π ∧
        run'.map (fun x => x.2.1) = run.map (fun x => x.2.1) ∧ π.arena = σ.arena := by
  obtain ⟨π₀, hπ₀, hagree₀⟩ := (agree_simulation S P).init σ₀ h₀
  obtain ⟨π, run', hrun', hlabels, hagree⟩ :=
    (agree_simulation S P).run (.of_init h₀) hagree₀ h
  exact ⟨π₀, π, run', hπ₀, hrun', hlabels, hagree.arena⟩

/-- Sixteen bytes. -/
def sixteen : Storage 16 := ⟨4096, 16, by decide, by decide⟩

/-- Every thread asks for three bytes at a multiple of four. -/
def threeEach : Arena Bool 16 :=
  Arena.start (fun _ => [.tryAlloc ⟨3, 4, ⟨2, rfl⟩, by decide⟩]) 0

/-- An interleaving in which nobody touches the memory. -/
theorem run_schedule (m : Bytes β) (schedule : List ι) (σ : Arena ι w) :
    ∃ run, (shared S P).Run ⟨σ, m⟩ run ⟨σ.run S schedule, m⟩ ∧
      run.map (fun x => x.2.1) = schedule.map Deed.step := by
  induction schedule generalizing σ with
  | nil => exact ⟨[], Machine.Run.refl _, rfl⟩
  | cons t schedule ih =>
    obtain ⟨run, hrun, hlabels⟩ := ih (σ.step S t)
    have hstep : (shared S P).step (⟨σ, m⟩ : Shared ι w β) (.step t) ⟨σ.step S t, m⟩ := rfl
    refine ⟨_, Machine.Run.head hstep hrun, ?_⟩
    rw [List.map_cons, List.map_cons, hlabels]

/-- Two threads compete for the first block of a zeroed arena.  The one that is granted it
writes to it; the other one tries again, and is granted the next block. -/
def contended : List (Deed Bool ℕ) :=
  [true, false, true, false, true].map .step ++ [.store 0 1 7] ++
    [false, false].map .step ++ [.store 1 2 9] ++ [.load 0 1 7] ++ [.load 1 0 0]

/-- The arena when the first block is granted. -/
def contended.first : Arena Bool 16 := threeEach.run sixteen [true, false, true, false, true]

/-- The arena when both blocks are granted. -/
def contended.arena : Arena Bool 16 := contended.first.run sixteen [false, false]

/-- The bytes afterwards. -/
def contended.bytes : Bytes ℕ := Bytes.store (Bytes.store (fun _ => 0) 4097 7) 4102 9

theorem contended.block_zero : contended.arena.block? 0 = some ⟨⟨4096, 3⟩, 4⟩ := by decide

theorem contended.block_one : contended.arena.block? 1 = some ⟨⟨4100, 3⟩, 4⟩ := by decide

theorem run_contended : ∃ run, (shared sixteen (· = 0)).Run ⟨threeEach, fun _ => 0⟩ run
    ⟨contended.arena, contended.bytes⟩ ∧ run.map (fun x => x.2.1) = contended := by
  obtain ⟨run₁, hrun₁, hlabels₁⟩ := run_schedule (S := sixteen) (P := (· = 0)) (fun _ => 0)
    [true, false, true, false, true] threeEach
  have hstore₁ : (shared sixteen (· = 0)).step (⟨contended.first, fun _ => 0⟩ : Shared Bool 16 ℕ)
      (.store 0 1 7) ⟨contended.first, Bytes.store (fun _ => 0) 4097 7⟩ :=
    ⟨⟨⟨4096, 3⟩, 4⟩, by decide, by decide, rfl⟩
  obtain ⟨run₂, hrun₂, hlabels₂⟩ := run_schedule (S := sixteen) (P := (· = 0))
    (Bytes.store (fun _ => 0) 4097 7) [false, false] contended.first
  have hstore₂ : (shared sixteen (· = 0)).step ⟨contended.arena, Bytes.store (fun _ => 0) 4097 7⟩
      (.store 1 2 9) ⟨contended.arena, contended.bytes⟩ :=
    ⟨_, contended.block_one, by decide, rfl⟩
  have hload₁ : (shared sixteen (· = 0)).step ⟨contended.arena, contended.bytes⟩ (.load 0 1 7)
      ⟨contended.arena, contended.bytes⟩ := ⟨_, contended.block_zero, by decide, rfl, rfl⟩
  have hload₂ : (shared sixteen (· = 0)).step ⟨contended.arena, contended.bytes⟩ (.load 1 0 0)
      ⟨contended.arena, contended.bytes⟩ := ⟨_, contended.block_one, by decide, rfl, rfl⟩
  refine ⟨_, ((((hrun₁.tail hstore₁).trans hrun₂).tail hstore₂).tail hload₁).tail hload₂, ?_⟩
  simp only [List.map_append, hlabels₁, hlabels₂]
  rfl

/-- What the threads did could be done to separate memories. -/
theorem blocks_isolated_contended : ∃ (π₀ π : Isolated Bool 16 ℕ)
    (run' : List (Isolated Bool 16 ℕ × Deed Bool ℕ × Isolated Bool 16 ℕ)),
    (isolated sixteen (· = 0)).init π₀ ∧ (isolated sixteen (· = 0)).Run π₀ run' π ∧
      run'.map (fun x => x.2.1) = contended ∧ π.arena.blocks.length = 2 := by
  obtain ⟨run, hrun, hlabels⟩ := run_contended
  obtain ⟨π₀, π, run', h₀, hrun', hlabels', harena⟩ :=
    blocks_isolated ⟨⟨_, 0, Nat.zero_le _, rfl⟩, fun _ _ _ => rfl⟩ hrun
  refine ⟨π₀, π, run', h₀, hrun', hlabels'.trans hlabels, ?_⟩
  rw [harena]
  decide

/-! ## What is read -/

/-- What is remembered of the `k`-th byte of the `i`-th block after one more deed. -/
def Deed.remember (i k : ℕ) (last : Option β) : Deed ι β → Option β
  | .store j q b => if j = i ∧ q = k then some b else last
  | _ => last

/-- The byte that was stored there last, if any was. -/
def lastStore (i k : ℕ) (deeds : List (Deed ι β)) : Option β :=
  deeds.foldl (Deed.remember i k) none

/-- The byte is the one stored last, or one of `P` if none was stored. -/
def Remembers (P : β → Prop) (last : Option β) (b : β) : Prop :=
  match last with
  | some b' => b = b'
  | none => P b

omit [DecidableEq ι] in
theorem lastStore_snoc (i k : ℕ) (deeds : List (Deed ι β)) (d : Deed ι β) :
    lastStore i k (deeds ++ [d]) = d.remember i k (lastStore i k deeds) := by
  rw [lastStore, List.foldl_append]
  rfl

/-- The blocks that were handed out stay, and keep their numbers. -/
theorem Arena.Invariant.length_le {σ : Arena ι w} (h : σ.Invariant S) (t : ι) :
    σ.blocks.length ≤ (σ.step S t).blocks.length := by
  obtain ⟨-, hq | ⟨l, a, hg⟩⟩ := step_cases h.placed t
  · rw [hq.blocks]
  · rw [hg.blocks, List.length_cons]
    exact Nat.le_succ _

/-- **Separate memories remember.**  Each byte of a block is the last one that was stored
there; nothing was stored in a block that was not handed out. -/
theorem isolated_remembers {π₀ π : Isolated ι w β}
    {run : List (Isolated ι w β × Deed ι β × Isolated ι w β)} (h₀ : (isolated S P).init π₀)
    (h : (isolated S P).Run π₀ run π) : π.arena.Invariant S ∧
      ∀ i k, (i < π.arena.blocks.length →
          Remembers P (lastStore i k (run.map fun x => x.2.1)) (π.own i k)) ∧
        (π.arena.blocks.length ≤ i → lastStore i k (run.map fun x => x.2.1) = none) := by
  induction h with
  | refl =>
    obtain ⟨program, consumed, hc, harena⟩ := h₀
    rw [harena]
    exact ⟨Arena.start_invariant program hc, fun i k =>
      ⟨fun hi => absurd hi (Nat.not_lt_zero i), fun _ => rfl⟩⟩
  | @tail π π' run d hrun hstep ih =>
    obtain ⟨hinv, hmem⟩ := ih
    rw [List.map_append, List.map_singleton]
    cases d with
    | step t =>
      obtain ⟨harena, hown⟩ := hstep
      have hle := hinv.length_le t
      rw [← harena] at hle
      refine ⟨by rw [harena]; exact Arena.step_invariant hinv t, fun i k => ?_⟩
      rw [lastStore_snoc]
      obtain ⟨hnow, hnone⟩ := hmem i k
      refine ⟨fun hi => ?_, fun hi => hnone (hle.trans hi)⟩
      rcases Nat.lt_or_ge i π.arena.blocks.length with hold | hnew
      · rw [(hown i).1 hold]
        exact hnow hold
      · rw [hnone hnew]
        exact (hown i).2 hnew hi k
    | store j q b =>
      obtain ⟨block, hblock, hq, rfl⟩ := hstep
      refine ⟨hinv, fun i k => ?_⟩
      rw [lastStore_snoc]
      obtain ⟨hnow, hnone⟩ := hmem i k
      by_cases hij : j = i ∧ q = k
      · obtain ⟨rfl, rfl⟩ := hij
        rw [Deed.remember, if_pos ⟨rfl, rfl⟩]
        refine ⟨fun _ => ?_, fun hi => ?_⟩
        · show Function.update π.own j _ j q = b
          rw [Function.update_self, Function.update_self]
        · exact absurd (Arena.block?_eq_some hblock).1 (Nat.not_lt.mpr hi)
      · rw [Deed.remember, if_neg hij]
        refine ⟨fun hi => ?_, hnone⟩
        have hsame : Function.update π.own j (Function.update (π.own j) q b) i k = π.own i k := by
          by_cases hi : i = j
          · subst hi
            rw [Function.update_self, Function.update_of_ne fun hk => hij ⟨rfl, hk.symm⟩]
          · rw [Function.update_of_ne hi]
        show Remembers P _ (Function.update π.own j _ i k)
        rw [hsame]
        exact hnow hi
    | load j q b =>
      obtain ⟨block, hblock, hq, hb, rfl⟩ := hstep
      refine ⟨hinv, fun i k => ?_⟩
      rw [lastStore_snoc]
      exact hmem i k

/-- **What is read of a block** is what was last stored through its own reference; and
if nothing was, it is what every byte of the arena was at the beginning: in an arena
made by `Bump::zeroed()`, zero. -/
theorem reads_explained {σ₀ σ : Shared ι w β} {run : List (Shared ι w β × Deed ι β × Shared ι w β)}
    (h₀ : (shared S P).init σ₀) (h : (shared S P).Run σ₀ run σ) {i k : ℕ} {block : Block}
    (hblock : σ.arena.block? i = some block) (hk : k < block.span.size) :
    Remembers P (lastStore i k (run.map fun x => x.2.1)) (σ.bytes (block.span.start + k)) := by
  obtain ⟨π₀, hπ₀, hagree₀⟩ := (agree_simulation S P).init σ₀ h₀
  obtain ⟨π, run', hrun', hlabels, hagree⟩ :=
    (agree_simulation S P).run (.of_init h₀) hagree₀ h
  obtain ⟨-, hmem⟩ := isolated_remembers hπ₀ hrun'
  rw [hagree.bytes i block hblock k hk, ← hlabels]
  refine (hmem i k).1 ?_
  rw [hagree.arena]
  exact (Arena.block?_eq_some hblock).1

/-- The byte that was written to each block is still there; the others are still zero. -/
theorem reads_explained_contended : ∃ σ : Shared Bool 16 ℕ,
    (shared sixteen (· = 0)).Reachable σ ∧ σ.bytes 4096 = 0 ∧ σ.bytes 4097 = 7 ∧
      σ.bytes 4100 = 0 ∧ σ.bytes 4102 = 9 := by
  obtain ⟨run, hrun, hlabels⟩ := run_contended
  have h₀ : (shared sixteen (· = 0)).init (⟨threeEach, fun _ => 0⟩ : Shared Bool 16 ℕ) :=
    ⟨⟨_, 0, Nat.zero_le _, rfl⟩, fun _ _ _ => rfl⟩
  have h00 := reads_explained h₀ hrun (k := 0) contended.block_zero (by decide)
  have h01 := reads_explained h₀ hrun (k := 1) contended.block_zero (by decide)
  have h10 := reads_explained h₀ hrun (k := 0) contended.block_one (by decide)
  have h12 := reads_explained h₀ hrun (k := 2) contended.block_one (by decide)
  rw [hlabels] at h00 h01 h10 h12
  exact ⟨_, ⟨_, run, h₀, hrun⟩, h00, h01, h10, h12⟩

end Bump
end StaticAlloc
