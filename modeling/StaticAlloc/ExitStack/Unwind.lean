import StaticAlloc.ExitStack.Lifo

/-!
# A destructor that panics

`UnwindFlag` is there so that, when a destructor panics, the unwinding drops the
rest of the stack.  It finds the rest in its field `chain`, and the loop empties
that field before it runs a destructor and fills it again only afterwards.  While
the destructor runs the flag holds nothing, so a panic leaves nothing for it to
drop: `top` was taken, the flag is empty, and every value behind the panicking one
is forgotten.

`NothingForgotten` is what the flag is for.  `untilPanic_perm_iff` says when the
destructors that were started are all of them: when nothing but the last value of
the list panics, which is the value pinned first.  An exit stack popped by a thread
that is unwinding already aborts at the first panic, and so forgets nothing either.
-/

namespace StaticAlloc
namespace ExitStack

open Toolkit

variable {w : ℕ} {V : Type} {E : Setup w V}

/-- The destructors started in a stretch of the log. -/
def startedIn : List (Event E.link V) → List (ExitHandle E.link × V)
  | [] => []
  | .dropped h v :: log => (h, v) :: startedIn log
  | _ :: log => startedIn log

/-- The call aborted the process, or it started the destructor of every value
pinned before exactly once. -/
def NothingForgotten (σ τ : State E) (exit : Exit) : Prop :=
  exit = .aborted ∨ (startedIn (τ.log.drop σ.log.length)).Perm (pinnedSince σ.log)

section Started

variable {L : List (ExitHandle E.link × V)} {log : List (Event E.link V)}

theorem startedIn_drops : startedIn (drops L ++ log) = L ++ startedIn log := by
  induction L with
  | nil => rfl
  | cons hv L ih =>
    show hv :: startedIn (drops L ++ log) = hv :: (L ++ startedIn log)
    rw [ih]

theorem untilPanic_prefix : untilPanic L <+: L := by
  induction L with
  | nil => exact List.prefix_rfl
  | cons hv L ih =>
    rw [untilPanic]
    split
    · exact (List.cons_prefix_cons.mpr ⟨rfl, List.nil_prefix⟩)
    · exact (List.cons_prefix_cons.mpr ⟨rfl, ih⟩)

/-- All destructors are started exactly if none before the last panics. -/
theorem untilPanic_eq_self_iff :
    untilPanic L = L ↔ ∀ hv ∈ L.dropLast, E.panics hv.2 = false := by
  induction L with
  | nil => simp [untilPanic]
  | cons hv L ih =>
    cases L with
    | nil =>
      rw [untilPanic, untilPanic, ite_self]
      simp
    | cons hv' L =>
      rw [untilPanic, List.dropLast_cons_cons, List.forall_mem_cons, ← ih]
      cases E.panics hv.2 with
      | true => simp
      | false => simp

theorem untilPanic_perm_iff :
    (untilPanic L).Perm L ↔ ∀ hv ∈ L.dropLast, E.panics hv.2 = false := by
  rw [← untilPanic_eq_self_iff]
  constructor
  · intro hperm
    exact untilPanic_prefix.eq_of_length hperm.length_eq
  · intro heq
    rw [heq]

end Started

section Calls

variable {σ τ : State E} {L : List (ExitHandle E.link × V)} {tail : List (Event E.link V)}
  {started : List (ExitHandle E.link × V)} {exit : Exit}

/-- What a call forgets can be read off the drops it added to the log. -/
theorem nothingForgotten_iff_perm (h : Inv σ L) (hlog : τ.log = σ.log ++ (drops started ++ tail))
    (htail : startedIn tail = []) :
    NothingForgotten σ τ exit ↔ exit = .aborted ∨ started.Perm L := by
  rw [NothingForgotten, hlog, List.drop_left, startedIn_drops, htail, List.append_nil, h.pinned]
  have hperm : started.Perm L.reverse ↔ started.Perm L :=
    ⟨fun hp => hp.trans L.reverse_perm, fun hp => hp.trans L.reverse_perm.symm⟩
  rw [hperm]

/-- A pop, and the drop of the stack, end in one of three ways. -/
theorem pop_ends (h : Inv σ L) (panicking : Bool) {op : Op E}
    (hop : op = .popAll panicking ∨ op = .drop panicking) :
    ∃ τ exit tail, Ends σ op τ exit ∧ τ.log = σ.log ++ (drops (untilPanic L) ++ tail) ∧
      startedIn tail = [] ∧ exit = (if ∃ hv ∈ L, E.panics hv.2 = true then
        (if panicking then .aborted else .unwinding) else .returned) := by
  obtain ⟨σ', hσ', hlog, hexec⟩ : ∃ σ', Inv σ' L ∧ σ'.log = σ.log ∧
      ∀ fuel, exec fuel σ op = popAll panicking fuel σ' := by
    rcases hop with rfl | rfl
    · exact ⟨σ, h, rfl, fun _ => rfl⟩
    · exact ⟨{ σ with alive := false }, h.dead, rfl, fun _ => rfl⟩
  by_cases hpanics : ∃ hv ∈ L, E.panics hv.2 = true
  · obtain ⟨m, hm⟩ := popAll_panics panicking hσ' hpanics
    rw [if_pos hpanics]
    cases panicking with
    | true =>
      refine ⟨_, _, [], ⟨_, fun fuel hfuel => (hexec fuel).trans (hm fuel hfuel)⟩, ?_, rfl, rfl⟩
      rw [List.append_nil, ← hlog]
      rfl
    | false =>
      refine ⟨_, _, [.unwound], ⟨_, fun fuel hfuel => (hexec fuel).trans (hm fuel hfuel)⟩, ?_,
        rfl, rfl⟩
      rw [← List.append_assoc, ← hlog]
      rfl
  · have hquiet : ∀ hv ∈ L, E.panics hv.2 = false := fun hv hmem =>
      Bool.eq_false_iff.mpr fun hp => hpanics ⟨hv, hmem, hp⟩
    obtain ⟨m, hm⟩ := popAll_quiet panicking hσ' hquiet
    rw [if_neg hpanics, untilPanic_eq_self hquiet]
    refine ⟨_, _, [.reset], ⟨_, fun fuel hfuel => (hexec fuel).trans (hm fuel hfuel)⟩, ?_,
      rfl, rfl⟩
    rw [← List.append_assoc, ← hlog]
    rfl

/-- **When nothing is forgotten.**  From every reachable state, popping the stack
or dropping it ends, and it starts the destructor of every pinned value exactly
once, or aborts, if and only if the thread was unwinding already or no value but
the one pinned first has a destructor that panics. -/
theorem nothing_forgotten_iff (h : (machine E).Reachable σ) (panicking : Bool) {op : Op E}
    (hop : op = .popAll panicking ∨ op = .drop panicking) :
    ∃ τ exit, Ends σ op τ exit ∧ exit ≠ .running ∧ (NothingForgotten σ τ exit ↔
      panicking = true ∨ ∀ hv ∈ (pinnedSince σ.log).tail, E.panics hv.2 = false) := by
  obtain ⟨L, hL⟩ := reachable_inv h
  obtain ⟨τ, exit, tail, hends, hlog, htail, hexit⟩ := pop_ends hL panicking hop
  have htail' : (∀ hv ∈ (pinnedSince σ.log).tail, E.panics hv.2 = false) ↔
      ∀ hv ∈ L.dropLast, E.panics hv.2 = false := by
    rw [hL.pinned, List.tail_reverse]
    simp only [List.mem_reverse]
  refine ⟨τ, exit, hends, ?_, ?_⟩
  · rw [hexit]
    split
    · split <;> decide
    · decide
  · rw [nothingForgotten_iff_perm hL hlog htail, untilPanic_perm_iff, htail']
    by_cases hpanics : ∃ hv ∈ L, E.panics hv.2 = true
    · rw [if_pos hpanics] at hexit
      cases panicking with
      | true => simp [hexit]
      | false => simp [hexit]
    · have hquiet : ∀ hv ∈ L.dropLast, E.panics hv.2 = false := fun hv hmem =>
        Bool.eq_false_iff.mpr fun hp => hpanics ⟨hv, (List.dropLast_sublist L).subset hmem, hp⟩
      exact iff_of_true (Or.inr hquiet) (Or.inr hquiet)

end Calls

/-! ## Two values, the second of which panics -/

/-- The second value has a destructor that panics. -/
def panicky : Setup 64 ℕ := eightWords fun v => v == 2

/-- The values `1` and `2` are pinned. -/
def panickyPinned : State panicky where
  index := 48
  top := some ⟨4128, wordSlot⟩
  memory := writeEntry (writeEntry Objects.empty 4104 ⟨wordSlot, none, some 1⟩) 4128
    ⟨wordSlot, some ⟨4104, wordSlot⟩, some 2⟩
  slots := []
  alive := true
  log := [.pinned ⟨4104, wordSlot⟩ 1, .pinned ⟨4128, wordSlot⟩ 2]

theorem reachable_panickyPinned : (machine panicky).Reachable panickyPinned := by
  have h₀ : (machine panicky).Reachable (new _) := .of_init rfl
  have h₁ : (machine panicky).Reachable
      { new panicky with index := 24, slots := [⟨4104, wordSlot⟩] } :=
    h₀.tail (l := Op.slot wordSlot) ⟨rfl, Or.inl ⟨0, fun _ _ => rfl⟩⟩
  have h₂ : (machine panicky).Reachable
      (pin { new panicky with index := 24 } ⟨4104, wordSlot⟩ 1) :=
    h₁.tail (l := Op.pin 0 1) ⟨⟨rfl, by decide⟩, Or.inl ⟨0, fun _ _ => rfl⟩⟩
  have h₃ : (machine panicky).Reachable { pin { new panicky with index := 24 } ⟨4104, wordSlot⟩ 1
      with index := 48, slots := [⟨4128, wordSlot⟩] } :=
    h₂.tail (l := Op.slot wordSlot) ⟨rfl, Or.inl ⟨0, fun _ _ => rfl⟩⟩
  exact h₃.tail (l := Op.pin 0 2) ⟨⟨rfl, by decide⟩, Or.inl ⟨0, fun _ _ => rfl⟩⟩

/-- Popping them unwinds out of the second value's destructor.  The first value is
no longer on the stack, and its destructor was never started. -/
theorem pop_forgets : ∃ τ, Ends panickyPinned (.popAll false) τ .unwinding ∧
    (machine panicky).Reachable panickyPinned ∧ τ.top = none ∧
    τ.log = panickyPinned.log ++ [.dropped ⟨4128, wordSlot⟩ 2, .unwound] ∧
    ¬ NothingForgotten panickyPinned τ .unwinding := by
  have hends : Ends panickyPinned (.popAll false) (panickyPinned.emptied 48
      (writeEntry panickyPinned.memory 4128 ⟨wordSlot, some ⟨4104, wordSlot⟩, none⟩)
      (panickyPinned.log ++ [.dropped ⟨4128, wordSlot⟩ 2, .unwound])) .unwinding := by
    refine ⟨1, fun fuel hfuel => ?_⟩
    obtain ⟨fuel, rfl⟩ := Nat.exists_eq_add_of_le' hfuel
    rfl
  refine ⟨_, hends, reachable_panickyPinned, rfl, rfl, ?_⟩
  rintro (habort | hperm)
  · exact absurd habort (by decide)
  · exact absurd hperm.length_eq (by decide)

/-- The condition fails for these two values, and so something is forgotten. -/
theorem nothing_forgotten_iff_panicky : ∃ τ exit, Ends panickyPinned (.popAll false) τ exit ∧
    exit ≠ .running ∧ ¬ NothingForgotten panickyPinned τ exit := by
  obtain ⟨τ, exit, hends, hexit, hiff⟩ :=
    nothing_forgotten_iff reachable_panickyPinned false (Or.inl rfl)
  refine ⟨τ, exit, hends, hexit, fun hforgot => ?_⟩
  rcases hiff.mp hforgot with hfalse | hquiet
  · exact absurd hfalse (by decide)
  · exact absurd (hquiet (⟨4128, wordSlot⟩, 2) List.mem_cons_self) (by decide)

end ExitStack
end StaticAlloc
