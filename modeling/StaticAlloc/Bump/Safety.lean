import StaticAlloc.Bump.Threads

/-!
# Safety of the shared arena under every interleaving

The argument has one moving part.  A thread that is about to move the counter
carries an attempt computed earlier, possibly against a level long passed; but
the exchange goes through only when the counter still stands at the level the
attempt was computed for.  So a granted block starts at or after the current
level, and everything handed out before ends at or below it.

`step_cases` says once what a step can do to the counter and to the blocks:
nothing at all, or one exchange that moves the counter from the expected level
to the end of a new block.  `Invariant` is what the blocks and the waiting
threads satisfy, `step_invariant` carries it over a step, and the invariant rule
of the run library carries it over an interleaving.
-/

namespace StaticAlloc
namespace Bump

open Toolkit

variable {w : ℕ} {ι : Type*} {S : Storage w}

/-! ## What the entry points ask for -/

/-- The layout a call passes on is the one it asks for. -/
def Call.Requests (c : Call w) (l : Layout w) : Prop := c.size = l.size ∧ c.align = l.align

/-- A call that goes on to allocate asks for the layout it passes on, and one
served by a look at the level asks for no bytes. -/
def Body.Serves (c : Call w) : Body w → Prop
  | .loop l => c.Requests l
  | .once l _ => c.Requests l
  | .observe => c.size = 0
  | .giveUp => True

theorem Call.serves_body (c : Call w) : c.body.Serves c := by
  cases c with
  | tryAlloc l | alloc l | getLayout l => exact ⟨rfl, rfl⟩
  | allocAt l level | getLayoutAt l level => exact ⟨rfl, rfl⟩
  | get V =>
    simp only [body]
    split
    · assumption
    · exact ⟨rfl, rfl⟩
  | getAt V level =>
    simp only [body]
    split
    · assumption
    · exact ⟨rfl, rfl⟩
  | getSlice V len =>
    simp only [body]
    split
    · rename_i hlen
      rw [hlen]
      exact Nat.mul_zero _
    · cases hl : Layout.array V len with
      | none => trivial
      | some l =>
        obtain ⟨hs, ha⟩ := Layout.array_some hl
        by_cases hz : l.size = 0
        · simp only [if_pos hz]
          exact hs.symm.trans hz
        · simp only [if_neg hz]
          exact ⟨hs.symm, ha.symm⟩

/-! ## Waiting threads -/

/-- What a thread about to take an atomic step carries with it. -/
def Pc.Sound (S : Storage w) : Pc w → Prop
  | .idle => True
  | .loading c l => c.Requests l
  | .observing c => c.size = 0
  | .exchanging c l a => c.Requests l ∧ a.Sound S l

/-- What a thread does without moving the counter hands out no block. -/
def Next.Harmless (S : Storage w) (c : Call w) : Next w → Prop
  | .goto pc => pc.Sound S
  | .done r => c.size = 0 ∨ r.ptr? = none

theorem ptr?_exhausted (c : Call w) (level : Level) : (c.exhausted level).ptr? = none := by
  cases c <;> rfl

theorem attempt_harmless {c : Call w} {l : Layout w} (hc : c.Requests l) (e : ℕ) :
    (attempt S c l e).Harmless S c := by
  unfold attempt
  cases hp : prepare S l e with
  | error s => exact Or.inr rfl
  | ok o =>
    cases o with
    | none => exact Or.inr (ptr?_exhausted c e)
    | some a => exact ⟨hc, (prepare_sound hp).1⟩

theorem enter_harmless (c : Call w) : (enter S c).Harmless S c := by
  have hserves := c.serves_body
  unfold enter
  cases hb : c.body with
  | loop l => rw [hb] at hserves; exact hserves
  | once l level => rw [hb] at hserves; exact attempt_harmless hserves level
  | observe => rw [hb] at hserves; exact hserves
  | giveUp => exact Or.inr rfl

theorem mismatched_harmless {c : Call w} {l : Layout w} (hc : c.Requests l) (seen : ℕ) :
    (mismatched S c l seen).Harmless S c := by
  unfold mismatched
  split
  · exact attempt_harmless hc seen
  · exact Or.inr rfl

/-! ## What a step can do -/

namespace Arena

/-- Every thread is soundly placed. -/
def Placed (S : Storage w) (σ : Arena ι w) : Prop := ∀ t, (σ.threads t).pc.Sound S

/-- A step that neither moves the counter nor hands out a block. -/
structure Quiet (σ σ' : Arena ι w) : Prop where
  consumed : σ'.consumed = σ.consumed
  blocks : σ'.blocks = σ.blocks

/-- A step that moves the counter over a new block. -/
structure Grants (S : Storage w) (σ σ' : Arena ι w) (l : Layout w) (a : Attempt) : Prop where
  sound : a.Sound S l
  expected : σ.consumed = a.expectConsumed
  consumed : σ'.consumed = a.newConsumed
  blocks : σ'.blocks = ⟨⟨S.base + a.atAligned, l.size⟩, l.align⟩ :: σ.blocks

theorem blocks_cons (e : Entry ι w) (σ : Arena ι w) :
    ({ σ with log := e :: σ.log } : Arena ι w).blocks =
      (e.block?.toList ++ σ.blocks) := by
  unfold blocks
  rw [List.filterMap_cons]
  cases e.block? <;> rfl

variable [DecidableEq ι]

theorem placed_update {σ : Arena ι w} (h : σ.Placed S) (t : ι) {pc : Pc w} {todo : List (Call w)}
    (hpc : pc.Sound S) (t' : ι) : ((Function.update σ.threads t ⟨pc, todo⟩) t').pc.Sound S := by
  by_cases ht : t' = t
  · rw [ht, Function.update_self]
    exact hpc
  · rw [Function.update_of_ne ht]
    exact h t'

theorem settle_consumed (σ : Arena ι w) (t : ι) (c : Call w) (todo : List (Call w)) (n : Next w) :
    (σ.settle t c todo n).consumed = σ.consumed := by
  unfold settle
  split <;> rfl

theorem settle_placed {σ : Arena ι w} (h : σ.Placed S) (t : ι) (c : Call w)
    (todo : List (Call w)) {n : Next w} (hn : n.Harmless S c ∨ ∃ r, n = .done r) :
    (σ.settle t c todo n).Placed S := by
  unfold settle
  split
  · rename_i pc
    refine placed_update h t ?_
    rcases hn with hn | ⟨r, hr⟩
    · exact hn
    · exact absurd hr (by simp)
  · exact placed_update h t trivial
  · exact placed_update h t trivial

/-- A call that returns is logged with its reply, and nothing else is. -/
theorem settle_done_blocks (σ : Arena ι w) (t : ι) (c : Call w) (todo : List (Call w)) (r : Reply) :
    (σ.settle t c todo (.done r)).blocks = (Entry.block? ⟨t, c, r⟩).toList ++ σ.blocks := by
  cases r <;> exact blocks_cons _ σ

theorem settle_quiet (σ : Arena ι w) (t : ι) {c : Call w} (todo : List (Call w)) {n : Next w}
    (hn : n.Harmless S c) : Quiet σ (σ.settle t c todo n) := by
  refine ⟨settle_consumed σ t c todo n, ?_⟩
  cases n with
  | goto pc => rfl
  | done r =>
    rw [settle_done_blocks]
    have hnone : Entry.block? (⟨t, c, r⟩ : Entry ι w) = none := by
      unfold Entry.block?
      rcases hn with hz | hp
      · rw [if_pos hz]
      · rw [hp]
        exact ite_self _
    rw [hnone]
    rfl

/-- The exchange fails: the counter stays, and the thread goes on with the level
it found. -/
theorem exchange_of_ne {σ : Arena ι w} {t : ι} {c : Call w} {todo : List (Call w)} {l : Layout w}
    {a : Attempt} (h : σ.consumed ≠ a.expectConsumed) :
    exchange S σ t c todo l a = σ.settle t c todo (mismatched S c l σ.consumed) := by
  unfold exchange
  rw [compareExchange_of_ne h]

/-- The exchange succeeds: the counter has not moved since the attempt was
computed, and the block computed then is handed out now. -/
theorem exchange_grants {σ : Arena ι w} (h : σ.Placed S) (t : ι) {c : Call w} {l : Layout w}
    {a : Attempt} (hc : c.Requests l) (ha : a.Sound S l) (heq : σ.consumed = a.expectConsumed)
    (todo : List (Call w)) :
    (exchange S σ t c todo l a).Placed S ∧ Grants S σ (exchange S σ t c todo l a) l a := by
  have hfin : finish S c a = .done (c.succeed ⟨S.base + a.atAligned, a.newConsumed⟩) := by
    unfold finish
    rw [granted_eq]
  have hex : exchange S σ t c todo l a =
      { σ with consumed := a.newConsumed }.settle t c todo (finish S c a) := by
    unfold exchange
    rw [heq, compareExchange_self]
  have hptr : (c.succeed ⟨S.base + a.atAligned, a.newConsumed⟩).ptr? =
      some (S.base + a.atAligned) := by
    cases c <;> rfl
  have hblock : Entry.block? (⟨t, c, c.succeed ⟨S.base + a.atAligned, a.newConsumed⟩⟩ : Entry ι w) =
      some ⟨⟨S.base + a.atAligned, l.size⟩, l.align⟩ := by
    have hpos := ha.size_pos
    have hsize : c.size ≠ 0 := by
      rw [hc.1]
      omega
    unfold Entry.block?
    rw [if_neg hsize, hptr, hc.1, hc.2]
    rfl
  rw [hex]
  refine ⟨settle_placed (σ := { σ with consumed := a.newConsumed }) h t c todo
    (Or.inr ⟨_, hfin⟩), ha, heq, settle_consumed _ t c todo _, ?_⟩
  rw [hfin, settle_done_blocks, hblock]
  rfl

/-- **What a step can do.**  It leaves the counter and the blocks alone, or it
is an exchange at the level the thread expected, and hands out the block the
thread had computed. -/
theorem step_cases {σ : Arena ι w} (h : σ.Placed S) (t : ι) :
    (σ.step S t).Placed S ∧
      (Quiet σ (σ.step S t) ∨ ∃ l a, Grants S σ (σ.step S t) l a) := by
  have ht := h t
  unfold step
  generalize hth : σ.threads t = th at ht
  obtain ⟨pc, todo⟩ := th
  cases pc with
  | idle =>
    cases todo with
    | nil => exact ⟨h, Or.inl ⟨rfl, rfl⟩⟩
    | cons c todo =>
      exact ⟨settle_placed h t c todo (Or.inl (enter_harmless c)),
        Or.inl (settle_quiet σ t todo (enter_harmless c))⟩
  | loading c l =>
    have hn := attempt_harmless (S := S) ht σ.consumed
    exact ⟨settle_placed h t c todo (Or.inl hn), Or.inl (settle_quiet σ t todo hn)⟩
  | observing c =>
    have hn : (Next.done (c.observed σ.consumed)).Harmless S c := Or.inl ht
    exact ⟨settle_placed h t c todo (Or.inl hn), Or.inl (settle_quiet σ t todo hn)⟩
  | exchanging c l a =>
    obtain ⟨hc, ha⟩ := ht
    by_cases heq : σ.consumed = a.expectConsumed
    · obtain ⟨hp, hg⟩ := exchange_grants h t hc ha heq todo
      exact ⟨hp, Or.inr ⟨l, a, hg⟩⟩
    · have hn := mismatched_harmless (S := S) hc σ.consumed
      show (exchange S σ t c todo l a).Placed S ∧ (Quiet σ (exchange S σ t c todo l a) ∨ _)
      rw [exchange_of_ne heq]
      exact ⟨settle_placed h t c todo (Or.inl hn), Or.inl (settle_quiet σ t todo hn)⟩

end Arena

/-! ## The invariant -/

/-- The block lies in the part of the arena below `level`, properly aligned. -/
structure Block.Below (S : Storage w) (level : ℕ) (b : Block) : Prop where
  base_le : S.base ≤ b.span.start
  stop_le : b.span.stop ≤ S.base + level
  aligned : b.align ∣ b.span.start

theorem Block.Below.mono {b : Block} {n m : ℕ} (h : b.Below S n) (hnm : n ≤ m) : b.Below S m :=
  ⟨h.base_le, h.stop_le.trans (by omega), h.aligned⟩

namespace Arena

/-- What holds of the arena at every moment: the level is inside the region, the
blocks lie below it and share no byte, and the waiting threads are soundly
placed. -/
structure Invariant (S : Storage w) (σ : Arena ι w) : Prop where
  level_le : σ.consumed ≤ S.len
  below : ∀ b ∈ σ.blocks, b.Below S σ.consumed
  disjoint : σ.blocks.Pairwise fun b b' => Disjoint b.span.addresses b'.span.addresses
  placed : σ.Placed S

theorem start_invariant (program : ι → List (Call w)) {consumed : ℕ} (h : consumed ≤ S.len) :
    (start program consumed).Invariant S where
  level_le := h
  below _ hb := absurd hb List.not_mem_nil
  disjoint := List.Pairwise.nil
  placed _ := trivial

theorem Quiet.invariant {σ σ' : Arena ι w} (hq : Quiet σ σ') (h : σ.Invariant S)
    (hp : σ'.Placed S) : σ'.Invariant S where
  level_le := by rw [hq.consumed]; exact h.level_le
  below := by rw [hq.blocks, hq.consumed]; exact h.below
  disjoint := by rw [hq.blocks]; exact h.disjoint
  placed := hp

/-- A granted block starts at or after the level, so it meets no earlier one. -/
theorem Grants.invariant {σ σ' : Arena ι w} {l : Layout w} {a : Attempt}
    (hg : Grants S σ σ' l a) (h : σ.Invariant S) (hp : σ'.Placed S) : σ'.Invariant S := by
  have hle := hg.sound.le_atAligned
  have hnew := hg.sound.newConsumed_eq
  have hexp := hg.expected
  have hlevel : σ.consumed ≤ σ'.consumed := by
    rw [hg.consumed]
    omega
  constructor
  · rw [hg.consumed]
    exact hg.sound.newConsumed_le
  · rw [hg.blocks]
    intro b hb
    rcases List.mem_cons.mp hb with rfl | hb
    · refine ⟨Nat.le_add_right _ _, ?_, hg.sound.aligned⟩
      rw [hg.consumed, hnew, ← Nat.add_assoc]
      exact le_rfl
    · exact (h.below b hb).mono hlevel
  · rw [hg.blocks]
    refine List.pairwise_cons.mpr ⟨fun b hb => ?_, h.disjoint⟩
    have hstop := (h.below b hb).stop_le
    exact Span.disjoint_of_le (Or.inr (hstop.trans (by show _ ≤ S.base + a.atAligned; omega)))
  · exact hp

variable [DecidableEq ι]

/-- **The step lemma.** -/
theorem step_invariant {σ : Arena ι w} (h : σ.Invariant S) (t : ι) : (σ.step S t).Invariant S := by
  obtain ⟨hp, hq | ⟨l, a, hg⟩⟩ := step_cases h.placed t
  · exact hq.invariant h hp
  · exact hg.invariant h hp

theorem step_consumed_le {σ : Arena ι w} (h : σ.Placed S) (t : ι) :
    σ.consumed ≤ (σ.step S t).consumed := by
  obtain ⟨-, hq | ⟨l, a, hg⟩⟩ := step_cases h t
  · exact hq.consumed.ge
  · have hle := hg.sound.le_atAligned
    have hnew := hg.sound.newConsumed_eq
    rw [hg.consumed, hg.expected]
    omega

/-- **The run lemma.**  The invariant holds in every reachable state. -/
theorem reachable_invariant {σ : Arena ι w} (h : (machine S).Reachable σ) : σ.Invariant S := by
  refine Machine.Reachable.invariant ?_ ?_ h
  · rintro σ ⟨program, consumed, hc, rfl⟩
    exact start_invariant program hc
  · rintro σ t σ' - hinv rfl
    exact step_invariant hinv t

/-- Along every run the level only rises. -/
theorem consumed_mono {σ σ' : Arena ι w} {h : List (Arena ι w × ι × Arena ι w)}
    (hσ : (machine S).Reachable σ) (hrun : (machine S).Run σ h σ') :
    σ.consumed ≤ σ'.consumed := by
  refine Machine.Run.induct_ends (R := fun σ σ' => σ.consumed ≤ σ'.consumed)
    (fun _ => le_rfl) ?_ hσ hrun
  rintro σ τ t τ' hτ hle rfl
  exact hle.trans (step_consumed_le (reachable_invariant hτ).placed t)

/-- **No interleaving hands out a byte twice.**  On an arena of any base address
and length, at any level inside it, let any threads run any programs in any
order.  The blocks of all successful calls are pairwise disjoint, each lies
inside the region at a multiple of the alignment asked for, the level stays
inside the region and bounds the end of every block; and it never falls, however
the interleaving goes on. -/
theorem interleaving_safe (S : Storage w) (program : ι → List (Call w)) (consumed : ℕ)
    (hc : consumed ≤ S.len) (schedule rest : List ι) :
    let σ := (start program consumed).run S schedule
    (σ.blocks.Pairwise fun b b' => Disjoint b.span.addresses b'.span.addresses) ∧
      (∀ b ∈ σ.blocks, S.base ≤ b.span.start ∧ b.span.stop ≤ S.base + S.len ∧
        b.align ∣ b.span.start ∧ b.span.stop ≤ S.base + σ.consumed) ∧
      σ.consumed ≤ S.len ∧ σ.consumed ≤ (σ.run S rest).consumed := by
  intro σ
  have hstart : (machine S).Reachable (start program consumed) :=
    Machine.Reachable.of_init ⟨program, consumed, hc, rfl⟩
  obtain ⟨h, hrun⟩ := run_spec S schedule (start program consumed)
  have hσ : (machine S).Reachable σ := hrun.reachable hstart
  have hinv := reachable_invariant hσ
  obtain ⟨h', hrun'⟩ := run_spec S rest σ
  refine ⟨hinv.disjoint, fun b hb => ?_, hinv.level_le, consumed_mono hσ hrun'⟩
  have hbelow := hinv.below b hb
  have hlevel := hinv.level_le
  exact ⟨hbelow.base_le, hbelow.stop_le.trans (by omega), hbelow.aligned, hbelow.stop_le⟩

/-- Two threads ask for three bytes at a multiple of four.  Both read level `0`;
the slower one finds the counter moved and retries from level `3`. -/
theorem interleaving_safe_two_threads :
    let S : Storage 16 := ⟨4096, 16, by decide, by decide⟩
    let l : Layout 16 := ⟨3, 4, ⟨2, rfl⟩, by decide⟩
    let σ := (start (fun _ : Bool => [.tryAlloc l]) 0).run S [true, false, true, false, true, false,
      false]
    σ.blocks = [⟨⟨4100, 3⟩, 4⟩, ⟨⟨4096, 3⟩, 4⟩] ∧ σ.consumed = 7 ∧
      (σ.blocks.Pairwise fun b b' => Disjoint b.span.addresses b'.span.addresses) := by
  intro S l σ
  exact ⟨by decide, by decide, (interleaving_safe S _ 0 (by decide) _ []).1⟩

end Arena
end Bump
end StaticAlloc
