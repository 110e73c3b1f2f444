import StaticAlloc.Bump.Realloc
import StaticAlloc.Leaked.Refinement
import Mathlib.Algebra.BigOperators.Group.Finset.Basic

/-!
# Programs with boxes

Whatever a program does with boxes, and whatever it is told, it could do with trees of
values (`boxes_refine`).  So a box has the value that was moved into it until that is replaced,
taken or dropped, whatever happens to other boxes, and nothing a program may do stops it.

For trees it is plain where values go.  Every value made is in one place: in a variable, or
dropped, or lost with something that was forgotten (`owners_conserve`).  A program
therefore drops no value twice, and if it forgets nothing and ends with nothing it has
dropped them all (`boxes_conserve`).

The order is that of the trees.  The documentation of `leak_box` builds a list of any length,
each link in a box that the next link owns, and says that dropping the head prints the
links in reverse order; `chain_drops_in_reverse` is that.
-/

namespace StaticAlloc
namespace Leaked

open Toolkit

variable {w : ℕ} {τ δ ι : Type} [DecidableEq τ] [DecidableEq ι] {S : Storage w}
  {T : Types w τ δ} {b : Build}

/-! ## Runs -/

/-- What an act ends with does not depend on the fuel. -/
theorem Ends.unique {σ σ₁ σ₂ : State ι τ δ} {act : Act ι τ δ} {reply₁ reply₂ : Reply δ}
    (h₁ : σ.Ends S T b act σ₁ reply₁) (h₂ : σ.Ends S T b act σ₂ reply₂) :
    σ₁ = σ₂ ∧ reply₁ = reply₂ := by
  obtain ⟨n₁, h₁⟩ := h₁
  obtain ⟨n₂, h₂⟩ := h₂
  have heq := (h₁ _ (le_max_left n₁ n₂)).symm.trans (h₂ _ (le_max_right n₁ n₂))
  exact Prod.mk.inj (Option.some.inj (Except.ok.inj heq))

/-- **The simulation.** -/
theorem represents_simulation (S : Storage w) (T : Types w τ δ) (b : Build) :
    Simulation (State.machine (ι := ι) S T b) (owners ι τ δ)
      (fun σ π => ∃ F, Represents S T F σ π) where
  init := by
    rintro σ ⟨hvars, hlog, hlevel⟩
    refine ⟨⟨fun _ => none, []⟩, ⟨fun _ => rfl, rfl⟩, fun _ => [], ?_, hlog.symm, hlevel, ?_,
      ?_, ?_⟩
    · intro x
      rw [hvars x]
      exact .none
    · exact fun x s hs => absurd hs List.not_mem_nil
    · exact fun x => ⟨fun s hs => absurd hs List.not_mem_nil, List.Pairwise.nil⟩
    · exact fun x y _ s hs => absurd hs List.not_mem_nil
  step := by
    rintro σ ⟨act, reply⟩ σ' π - ⟨F, h⟩ ⟨hen, hends⟩
    obtain ⟨σ'', reply', π', F', hends', hstep, h'⟩ := matched h hen
    obtain ⟨rfl, rfl⟩ := Ends.unique hends hends'
    exact ⟨π', hstep, F', h'⟩

/-- **A box is a value of its own.**  In every run of a program, what it does and what
it is told could be done and told if its boxes were the values in them, and the same
destructors run in the same order.  And at any moment, whatever the program may do ends. -/
theorem boxes_refine {σ₀ σ : State ι τ δ}
    {run : List (State ι τ δ × (Act ι τ δ × Reply δ) × State ι τ δ)}
    (h₀ : (State.machine S T b).init σ₀) (h : (State.machine S T b).Run σ₀ run σ) :
    (∃ (π₀ π : Estate ι τ δ) (run' : List (Estate ι τ δ × (Act ι τ δ × Reply δ) × Estate ι τ δ)),
      (owners ι τ δ).init π₀ ∧ (owners ι τ δ).Run π₀ run' π ∧
        run'.map (fun x => x.2.1) = run.map (fun x => x.2.1) ∧ π.log = σ.log) ∧
    ∀ act, σ.Enabled S T act → ∃ σ' reply, σ.Ends S T b act σ' reply := by
  obtain ⟨π₀, hπ₀, hrep₀⟩ := (represents_simulation S T b).init σ₀ h₀
  obtain ⟨π, run', hrun', hlabels, F, hrep⟩ :=
    (represents_simulation S T b).run (.of_init h₀) hrep₀ h
  refine ⟨⟨π₀, π, run', hπ₀, hrun', hlabels, hrep.log⟩, fun act hen => ?_⟩
  obtain ⟨σ', reply, -, -, hends, -⟩ := matched hrep hen
  exact ⟨σ', reply, hends⟩

/-! ## Where values go -/

/-- The values an act makes. -/
def Act.made : Act ι τ δ → Multiset (τ × δ)
  | make _ type data => {(type, data)}
  | _ => 0

/-- The values that were made. -/
def made (labels : List (Act ι τ δ × Reply δ)) : Multiset (τ × δ) :=
  (labels.map fun l => l.1.made).sum

/-- The values in a variable. -/
def Owned.has : Option (Owned τ δ) → Multiset (τ × δ)
  | some (value t) | some (place _ t) => t.labels
  | _ => 0

variable [Fintype ι]

/-- The values in all variables. -/
def Estate.live (π : Estate ι τ δ) : Multiset (τ × δ) := ∑ x, Owned.has (π.vars x)

omit [DecidableEq τ] in
theorem Estate.live_assign (π : Estate ι τ δ) (x : ι) (o : Option (Owned τ δ)) :
    (π.assign x o).live + Owned.has (π.vars x) = π.live + Owned.has o := by
  have hrest : ∑ y ∈ Finset.univ.erase x, Owned.has (Function.update π.vars x o y) =
      ∑ y ∈ Finset.univ.erase x, Owned.has (π.vars y) := by
    refine Finset.sum_congr rfl fun y hy => ?_
    rw [Function.update_of_ne (Finset.ne_of_mem_erase hy)]
  have hold := Finset.add_sum_erase Finset.univ (fun y => Owned.has (π.vars y)) (Finset.mem_univ x)
  have hnew := Finset.add_sum_erase Finset.univ
    (fun y => Owned.has (Function.update π.vars x o y)) (Finset.mem_univ x)
  simp only [Function.update_self] at hnew
  rw [hrest] at hnew
  show (∑ y, Owned.has (Function.update π.vars x o y)) + _ = _
  rw [← hnew, Estate.live, ← hold, add_assoc, add_comm (Owned.has o),
    add_comm _ (Owned.has (π.vars x))]

omit [DecidableEq τ] in
/-- A variable holds the same values in another way. -/
theorem Estate.live_same {π : Estate ι τ δ} {x : ι} {o : Option (Owned τ δ)}
    (ho : Owned.has o = Owned.has (π.vars x)) : (π.assign x o).live = π.live := by
  have h := π.live_assign x o
  rw [ho] at h
  exact add_right_cancel h

omit [DecidableEq τ] in
/-- Values move between two variables. -/
theorem Estate.live_move {π : Estate ι τ δ} {x y : ι} (hne : x ≠ y) {o o' : Option (Owned τ δ)}
    (hsum : Owned.has o + Owned.has o' = Owned.has (π.vars x) + Owned.has (π.vars y)) :
    ((π.assign x o).assign y o').live = π.live := by
  have hx := π.live_assign x o
  have hy := (π.assign x o).live_assign y o'
  have hvar : (π.assign x o).vars y = π.vars y := Function.update_of_ne (Ne.symm hne) _ _
  rw [hvar] at hy
  refine add_right_cancel (b := Owned.has (π.vars x) + Owned.has (π.vars y)) ?_
  rw [add_comm (Owned.has (π.vars x)), ← add_assoc, hy, add_right_comm, hx, add_assoc, hsum,
    add_comm (Owned.has (π.vars y))]

omit [DecidableEq τ] in
/-- The tree of a variable is dropped. -/
theorem Estate.live_drops {π : Estate ι τ δ} {x : ι} {t : Rose (τ × δ)}
    (hx : Owned.has (π.vars x) = t.labels) :
    ((π.assign x none).drops t).live + (((π.assign x none).drops t).log : Multiset (τ × δ)) =
      π.live + (π.log : Multiset (τ × δ)) := by
  have h : (π.assign x none).live + t.labels = π.live := by
    rw [← hx]
    exact (π.live_assign x none).trans (add_zero _)
  show (π.assign x none).live + ((π.log ++ t.preorder : List (τ × δ)) : Multiset (τ × δ)) = _
  rw [← h, ← Multiset.coe_add]
  show (π.assign x none).live + ((π.log : Multiset (τ × δ)) + t.labels) = _
  rw [add_comm (π.log : Multiset (τ × δ)), ← add_assoc]

omit [DecidableEq τ] [DecidableEq ι] [Fintype ι] in
/-- Two variables that hold different things are two. -/
theorem Estate.ne_of_vars {π : Estate ι τ δ} {x y : ι} {o o' : Option (Owned τ δ)}
    (hx : π.vars x = o) (hy : π.vars y = o') (hne : o ≠ o') : x ≠ y := by
  rintro rfl
  exact hne (hx.symm.trans hy)

/-- The values that are held or were dropped. -/
def Estate.kept (π : Estate ι τ δ) : Multiset (τ × δ) := π.live + (π.log : Multiset (τ × δ))

omit [DecidableEq τ] in
/-- **One act.**  What is made is held, and what is not held any more was dropped, unless
it was forgotten. -/
theorem Does.conserve {π π' : Estate ι τ δ} {act : Act ι τ δ} {reply : Reply δ}
    (h : Does π act reply π') : ∃ lost : Multiset (τ × δ),
      π'.kept + lost = π.kept + act.made ∧ ((∀ x, act ≠ .forget x) → lost = 0) := by
  -- an act that makes nothing and forgets nothing
  have hsame : ∀ {π' : Estate ι τ δ}, π'.kept = π.kept → ∃ lost : Multiset (τ × δ),
      π'.kept + lost = π.kept + 0 ∧ ((∀ x, act ≠ .forget x) → lost = 0) :=
    fun heq => ⟨0, by rw [heq], fun _ => rfl⟩
  have hlive : ∀ {π' : Estate ι τ δ}, π'.live = π.live → π'.log = π.log → π'.kept = π.kept :=
    fun hl hlog => by rw [Estate.kept, Estate.kept, hl, hlog]
  cases h with
  | @make x type data hx =>
    refine ⟨0, ?_, fun _ => rfl⟩
    have h := π.live_assign x (some (.value (.node (type, data) [])))
    rw [hx] at h
    show (π.assign x _).live + _ + 0 = π.live + _ + {(type, data)}
    rw [add_zero, add_right_comm]
    exact congrArg (· + (π.log : Multiset (τ × δ))) ((add_zero _).symm.trans h)
  | discard hx => exact hsame (Estate.live_drops (by rw [hx]; rfl))
  | attach hx hy =>
    refine hsame (hlive (Estate.live_move (Estate.ne_of_vars hy hx (by simp)) ?_) rfl)
    rw [hx, hy]
    exact (zero_add _).trans (Rose.labels_cons _ _ _)
  | detach hx hy =>
    refine hsame (hlive (Estate.live_move (Estate.ne_of_vars hx hy (by simp)) ?_) rfl)
    rw [hx, hy]
    exact (add_comm _ _).trans ((Rose.labels_cons _ _ _).symm.trans (add_zero _).symm)
  | leakBox hx | leakBoxAt hx | leak hx | leakAt hx =>
    exact hsame (hlive (Estate.live_same (by rw [hx]; rfl)) rfl)
  | leakBox_refused hx | leakBoxAt_refused hx =>
    exact hsame (Estate.live_drops (by rw [hx]; rfl))
  | leak_refused | leakAt_refused | leakUninit_refused | read | reset => exact hsame rfl
  | leakUninit hx => exact hsame (hlive (Estate.live_same (by rw [hx]; rfl)) rfl)
  | write hx hy =>
    refine hsame (hlive (Estate.live_move (Estate.ne_of_vars hy hx (by simp)) ?_) rfl)
    rw [hx, hy]
    exact add_comm _ _
  | replace hx hy =>
    refine hsame (hlive (Estate.live_move (Estate.ne_of_vars hx hy (by simp)) ?_) rfl)
    rw [hx, hy]
    exact add_comm _ _
  | take hx => exact hsame (hlive (Estate.live_same (by rw [hx]; rfl)) rfl)
  | drop hx => exact hsame (Estate.live_drops (by rw [hx]; rfl))
  | intoRaw hx | fromRaw hx | intoRef hx | fromMutUnchecked hx =>
    exact hsame (hlive (Estate.live_same (by rw [hx]; rfl)) rfl)
  | @forget x hx =>
    refine ⟨Owned.has (π.vars x), ?_, fun hne => absurd rfl (hne x)⟩
    show (π.assign x none).live + _ + _ = π.live + _ + 0
    rw [add_zero, add_right_comm]
    exact congrArg (· + (π.log : Multiset (τ × δ)))
      ((π.live_assign x none).trans (add_zero _))

omit [DecidableEq τ] in
/-- **Every value is in one place**: held, dropped, or lost with something that was
forgotten. -/
theorem owners_conserve {π₀ π : Estate ι τ δ}
    {run : List (Estate ι τ δ × (Act ι τ δ × Reply δ) × Estate ι τ δ)}
    (h₀ : (owners ι τ δ).init π₀) (h : (owners ι τ δ).Run π₀ run π) :
    ∃ lost : Multiset (τ × δ), π.kept + lost = made (run.map fun x => x.2.1) ∧
      ((∀ l ∈ run.map (fun x => x.2.1), ∀ x, l.1 ≠ .forget x) → lost = 0) := by
  induction h with
  | refl =>
    refine ⟨0, ?_, fun _ => rfl⟩
    have hlive : π₀.live = 0 := Finset.sum_eq_zero fun x _ => by
      rw [h₀.1 x]
      rfl
    rw [Estate.kept, hlive, h₀.2]
    rfl
  | @tail π π' run l hrun hstep ih =>
    obtain ⟨lost, hkept, hnone⟩ := ih
    obtain ⟨lost', hkept', hnone'⟩ := Does.conserve hstep
    have hmade : made ((run ++ [(π, l, π')]).map fun x => x.2.1) =
        made (run.map fun x => x.2.1) + l.1.made := by
      simp [made]
    refine ⟨lost' + lost, ?_, fun hforget => ?_⟩
    · rw [hmade, ← add_assoc, hkept', add_right_comm, hkept]
    · rw [List.map_append] at hforget
      rw [hnone fun l hl => hforget l (List.mem_append_left _ hl),
        hnone' (hforget l (List.mem_append_right _ (List.mem_singleton_self _))), add_zero]

/-- **No value is dropped twice, and none is missed.**  In every run of a program, what was
dropped had been made, and no more often; and if nothing was forgotten and no variable holds
anything any more, everything that was made was dropped. -/
theorem boxes_conserve {σ₀ σ : State ι τ δ}
    {run : List (State ι τ δ × (Act ι τ δ × Reply δ) × State ι τ δ)}
    (h₀ : (State.machine S T b).init σ₀) (h : (State.machine S T b).Run σ₀ run σ) :
    (σ.log : Multiset (τ × δ)) ≤ made (run.map fun x => x.2.1) ∧
    ((∀ l ∈ run.map (fun x => x.2.1), ∀ x, l.1 ≠ .forget x) → (∀ x, σ.vars x = none) →
      (σ.log : Multiset (τ × δ)) = made (run.map fun x => x.2.1)) := by
  obtain ⟨π₀, hπ₀, hrep₀⟩ := (represents_simulation S T b).init σ₀ h₀
  obtain ⟨π, run', hrun', hlabels, F, hrep⟩ :=
    (represents_simulation S T b).run (.of_init h₀) hrep₀ h
  obtain ⟨lost, hkept, hnone⟩ := owners_conserve hπ₀ hrun'
  rw [hlabels] at hkept hnone
  rw [Estate.kept, hrep.log] at hkept
  refine ⟨?_, fun hforget hvars => ?_⟩
  · rw [← hkept]
    exact (Multiset.le_add_left _ _).trans (Multiset.le_add_right _ _)
  · have hlive : π.live = 0 := Finset.sum_eq_zero fun x _ => by
      rw [(hrep.free (hvars x)).1]
      rfl
    rw [hlive, hnone hforget, zero_add, add_zero] at hkept
    exact hkept

omit [Fintype ι]

/-! ## A list of links -/

section

variable {x y : ι} {link : τ} {last : δ}

/-- The variable that holds the list when it has `n` links. -/
def spot (x y : ι) (n : ℕ) : ι := if n % 2 = 0 then x else y

omit [DecidableEq τ] [DecidableEq ι] in
theorem spot_ne (hne : x ≠ y) (n : ℕ) : spot x y (n + 1) ≠ spot x y n := by
  rw [spot, spot]
  rcases Nat.mod_two_eq_zero_or_one n with h | h
  · rw [if_neg (by omega), if_pos h]
    exact Ne.symm hne
  · rw [if_pos (by omega), if_neg (by omega)]
    exact hne

/-- `make_chain`, for the links of a list, the last one first: for each link the list so far
goes into a box, and the box into the link. -/
def makeChain (x y : ι) (link : τ) (last : δ) : List δ → List (Act ι τ δ)
  | [] => [.make x link last]
  | node :: nodes => makeChain x y link last nodes ++
      [.leakBox (spot x y nodes.length), .make (spot x y (nodes.length + 1)) link node,
        .attach (spot x y (nodes.length + 1)) (spot x y nodes.length)]

/-- The list as a tree. -/
def chainTree (link : τ) (last : δ) : List δ → Rose (τ × δ)
  | [] => .node (link, last) []
  | node :: nodes => .node (link, node) [chainTree link last nodes]

omit [DecidableEq τ] in
theorem preorder_chainTree (nodes : List δ) :
    (chainTree link last nodes).preorder = (nodes ++ [last]).map (link, ·) := by
  induction nodes with
  | nil => rfl
  | cons node nodes ih =>
    show (link, node) :: ((chainTree link last nodes).preorder ++ []) = _
    rw [ih, List.append_nil]
    rfl

omit [DecidableEq τ] in
/-- If every box was granted, the list is there, and nothing was dropped. -/
theorem owners_makeChain (hne : x ≠ y) (nodes : List δ) {π₀ π : Estate ι τ δ}
    {run : List (Estate ι τ δ × (Act ι τ δ × Reply δ) × Estate ι τ δ)}
    (h₀ : (owners ι τ δ).init π₀) (h : (owners ι τ δ).Run π₀ run π)
    (hlabels : run.map (fun x => x.2.1) =
      (makeChain x y link last nodes).map fun act => (act, .done)) :
    π.vars (spot x y nodes.length) = some (.value (chainTree link last nodes)) ∧ π.log = [] := by
  induction nodes generalizing π run with
  | nil =>
    have hlabels₁ : run.map (fun x => x.2.1) = [] ++ [_] := hlabels
    obtain ⟨π', run', hrun', hlabels', hstep⟩ := h.of_labels_snoc hlabels₁
    have hnil : run' = [] := by simpa using hlabels'
    subst hnil
    obtain rfl : π₀ = π' := by
      generalize hr : ([] : List (Estate ι τ δ × (Act ι τ δ × Reply δ) × Estate ι τ δ)) = r at hrun'
      cases hrun' with
      | refl => rfl
      | tail => exact absurd hr (by simp)
    cases hstep with
    | make => exact ⟨Function.update_self _ _ _, h₀.2⟩
  | cons node nodes ih =>
    rw [makeChain, List.map_append, List.map_cons, List.map_cons, List.map_cons, List.map_nil,
      List.append_cons, List.append_cons] at hlabels
    obtain ⟨π₃, run₃, h₃, hlabels₃, hattach⟩ := h.of_labels_snoc hlabels
    obtain ⟨π₂, run₂, h₂, hlabels₂, hmake⟩ := h₃.of_labels_snoc hlabels₃
    obtain ⟨π₁, run₁, h₁, hlabels₁, hbox⟩ := h₂.of_labels_snoc hlabels₂
    obtain ⟨hvar, hlog⟩ := ih h₁ hlabels₁
    have hne' := spot_ne hne nodes.length
    cases hbox with
    | leakBox ht =>
      obtain rfl := Owned.value.inj (Option.some.inj (hvar.symm.trans ht))
      cases hmake with
      | make hfree =>
        cases hattach with
        | @attach _ _ a ts t hx hy =>
          have hx' : (link, node) = a ∧ [] = ts := by
            have := (Function.update_self (spot x y (nodes.length + 1)) _ _).symm.trans hx
            exact Rose.node.inj (Owned.value.inj (Option.some.inj this))
          have hy' : chainTree link last nodes = t := by
            have hrest := (Function.update_of_ne (Ne.symm hne') _ _).symm.trans hy
            have := (Function.update_self (spot x y nodes.length) _ _).symm.trans hrest
            exact (Owned.place.inj (Option.some.inj this)).2
          obtain ⟨rfl, rfl⟩ := hx'
          subst hy'
          exact ⟨Function.update_self _ _ _, hlog⟩

/-- **The links are dropped in reverse order.**  A program makes a list of any number of
links, each in a box that the next one owns, and drops its head.  The link made last is
dropped first and the one made first last, each once. -/
theorem chain_drops_in_reverse (hne : x ≠ y) (nodes : List δ) {σ₀ σ : State ι τ δ}
    {run : List (State ι τ δ × (Act ι τ δ × Reply δ) × State ι τ δ)}
    (h₀ : (State.machine S T b).init σ₀) (h : (State.machine S T b).Run σ₀ run σ)
    (hlabels : run.map (fun x => x.2.1) = (makeChain x y link last nodes.reverse ++
      [Act.discard (spot x y nodes.length)]).map fun act => (act, Reply.done)) :
    σ.log = ((last :: nodes).map (link, ·)).reverse := by
  obtain ⟨⟨π₀, π, run', hπ₀, hrun', hlabels', hlog⟩, -⟩ := boxes_refine h₀ h
  rw [hlabels, List.map_append] at hlabels'
  obtain ⟨π', run'', hrun'', hlabels'', hdiscard⟩ := hrun'.of_labels_snoc hlabels'
  obtain ⟨hvar, hnil⟩ := owners_makeChain hne nodes.reverse hπ₀ hrun'' hlabels''
  rw [List.length_reverse] at hvar
  cases hdiscard with
  | discard hx =>
    obtain rfl := Owned.value.inj (Option.some.inj (hvar.symm.trans hx))
    rw [← hlog]
    show π'.log ++ (chainTree link last nodes.reverse).preorder = _
    rw [hnil, preorder_chainTree, List.nil_append, ← List.map_reverse, List.reverse_cons]

end

/-! ## A list of two links -/

/-- Links are eight bytes long. -/
def links : Types 64 Unit ℕ := ⟨fun _ => Ty.word, fun _ => none⟩

/-- A program that makes two links and drops them. -/
theorem run_two_links : ∃ run σ,
    (State.machine Bump.sixtyFour links .debug).Run
      (⟨⟨0, Objects.empty⟩, fun _ => none, []⟩ : State Bool Unit ℕ) run σ ∧
    run.map (fun x => x.2.1) = ([.make true () 0, .leakBox true, .make false () 1,
      .attach false true, .discard false] : List (Act Bool Unit ℕ)).map (fun act => (act, .done)) ∧
    ∀ x, σ.vars x = none := by
  let s₀ : State Bool Unit ℕ := ⟨⟨0, Objects.empty⟩, fun _ => none, []⟩
  let s₁ := s₀.assign true (some (.value ⟨(), 0, []⟩))
  let memory := Objects.empty.write links.sizeOf 4096 ⟨(), 0, []⟩
  let s₂ := { s₁.assign true (some (.place .boxed ⟨4096, ()⟩)) with heap := ⟨8, memory⟩ }
  let s₃ := s₂.assign false (some (.value ⟨(), 1, []⟩))
  let s₄ := (s₃.assign true none).assign false (some (.value ⟨(), 1, [⟨4096, ()⟩]⟩))
  let s₅ := { s₄.assign false none with
    heap := ⟨8, memory.erase [⟨4096, 8⟩]⟩, log := [((), 1), ((), 0)] }
  have h₁ : (State.machine Bump.sixtyFour links .debug).step s₀ (.make true () 0, .done) s₁ :=
    ⟨⟨rfl, nofun⟩, 0, fun _ _ => rfl⟩
  have h₂ : (State.machine Bump.sixtyFour links .debug).step s₁ (.leakBox true, .done) s₂ := by
    refine ⟨⟨_, rfl⟩, 0, fun fuel _ => ?_⟩
    have hword : Bump.BumpView.get Bump.sixtyFour 0 Ty.word = .ok (8, some ⟨4096, 8⟩) := by
      rw [Bump.BumpView.get, if_neg (by decide), Bump.tryAlloc_eq (by decide) (Nat.zero_le _)]
      rfl
    have hget : Bump.BumpView.get Bump.sixtyFour s₁.heap.consumed
        (links.layout (⟨(), 0, []⟩ : Value Unit ℕ).type) = .ok (8, some ⟨4096, 8⟩) := hword
    have hbox : leakBox Bump.sixtyFour links fuel s₁.heap ⟨(), 0, []⟩ =
        .ok (some (⟨8, memory⟩, some ⟨4096, ()⟩, [])) := by
      rw [leakBox, hget]
      rfl
    show (leakBox _ _ _ _ _ >>= _) = _
    rw [hbox]
    rfl
  have h₃ : (State.machine Bump.sixtyFour links .debug).step s₂ (.make false () 1, .done) s₃ :=
    ⟨⟨rfl, nofun⟩, 0, fun _ _ => rfl⟩
  have h₄ : (State.machine Bump.sixtyFour links .debug).step s₃ (.attach false true, .done) s₄ :=
    ⟨⟨_, _, rfl, rfl, by decide⟩, 0, fun _ _ => rfl⟩
  have h₅ : (State.machine Bump.sixtyFour links .debug).step s₄ (.discard false, .done) s₅ := by
    refine ⟨⟨_, rfl⟩, 1, fun fuel hfuel => ?_⟩
    obtain ⟨n, rfl⟩ := Nat.exists_eq_add_of_le' hfuel
    rfl
  refine ⟨_, s₅, (((((Machine.Run.refl s₀).tail h₁).tail h₂).tail h₃).tail h₄).tail h₅, rfl, ?_⟩
  intro x
  cases x
  · rfl
  · rfl

/-- The two links as trees. -/
theorem boxes_refine_two_links : ∃ (π₀ π : Estate Bool Unit ℕ) (run : List
      (Estate Bool Unit ℕ × (Act Bool Unit ℕ × Reply ℕ) × Estate Bool Unit ℕ)),
    (owners Bool Unit ℕ).init π₀ ∧ (owners Bool Unit ℕ).Run π₀ run π ∧ run.length = 5 := by
  obtain ⟨run, σ, hrun, hlabels, -⟩ := run_two_links
  obtain ⟨⟨π₀, π, run', h₀, hrun', hlabels', -⟩, -⟩ :=
    boxes_refine ⟨fun _ => rfl, rfl, Nat.zero_le _⟩ hrun
  refine ⟨π₀, π, run', h₀, hrun', ?_⟩
  have hlength := congrArg List.length (hlabels'.trans hlabels)
  rwa [List.length_map] at hlength

/-- Both links were dropped. -/
theorem boxes_conserve_two_links : ∃ σ : State Bool Unit ℕ,
    (State.machine Bump.sixtyFour links .debug).Reachable σ ∧
      (σ.log : Multiset (Unit × ℕ)) = {((), 0), ((), 1)} := by
  obtain ⟨run, σ, hrun, hlabels, hvars⟩ := run_two_links
  have h₀ : (State.machine Bump.sixtyFour links .debug).init
      (⟨⟨0, Objects.empty⟩, fun _ => none, []⟩ : State Bool Unit ℕ) :=
    ⟨fun _ => rfl, rfl, Nat.zero_le _⟩
  obtain ⟨-, hall⟩ := boxes_conserve h₀ hrun
  rw [hlabels] at hall
  exact ⟨σ, ⟨_, run, h₀, hrun⟩, (hall (by simp) hvars).trans rfl⟩

/-- The second link was dropped first. -/
theorem chain_drops_in_reverse_two_links : ∃ σ : State Bool Unit ℕ,
    (State.machine Bump.sixtyFour links .debug).Reachable σ ∧ σ.log = [((), 1), ((), 0)] := by
  obtain ⟨run, σ, hrun, hlabels, -⟩ := run_two_links
  have h₀ : (State.machine Bump.sixtyFour links .debug).init
      (⟨⟨0, Objects.empty⟩, fun _ => none, []⟩ : State Bool Unit ℕ) :=
    ⟨fun _ => rfl, rfl, Nat.zero_le _⟩
  exact ⟨σ, ⟨_, run, h₀, hrun⟩,
    chain_drops_in_reverse (x := true) (y := false) (by decide) [1] h₀ hrun hlabels⟩

end Leaked
end StaticAlloc
