import StaticAlloc.Bump.Returns
import StaticAlloc.Bump.Placement
import StaticAlloc.Library.Histories

/-!
# The shared arena is linearizable

A thread that calls `try_alloc` may load the level, lose the race for it several times
and be served in the end, all while other threads are served.  Nobody can tell: the
calls have the replies that they would have had, each run without interruption, one
after the other in the order in which they returned (`linearizable`).

What makes it so is in one step.  A call is answered in the step that returns from
it.  If it is granted a block, the exchange found the level that the block was computed
for.  If there is no room, the computation was made for the level that the same step
read off the counter; or it was made for a level that the caller gave, and then
the level of the arena did not matter.  In each case `Call.alone`, the call run
without interruption, does the same at the level of that moment (`step_explains`).

The unsynchronized arena could stand in for the sequential one: for calls that ask
for memory, threads on one shared arena see an arena that is not shared at all
(`linearizable_unsync`).
-/

namespace StaticAlloc
namespace Bump

open Toolkit

variable {w : ℕ} {ι : Type*} {S : Storage w} {l : Layout w} {c : Call w} {e level n : ℕ}

/-! ## A call without interruption -/

/-- An entry point, run without interruption on a counter that stands at `consumed`. -/
def Call.alone (S : Storage w) (consumed : ℕ) (c : Call w) : ℕ × Reply :=
  match c.body with
  | .loop layout =>
    match Bump.tryAlloc S consumed layout with
    | .ok (consumed, .ok a) => (consumed, c.succeed a)
    | .ok (consumed, .error level) => (consumed, c.exhausted level)
    | .error s => (consumed, .stopped s)
  | .once layout level =>
    match tryAllocAt S consumed layout level with
    | .ok (consumed, .ok a) => (consumed, c.succeed a)
    | .ok (consumed, .error .exhausted) => (consumed, c.exhausted level)
    | .ok (consumed, .error (.mismatch observed)) => (consumed, .failed (.mismatch observed))
    | .error s => (consumed, .stopped s)
  | .observe => (consumed, c.observed consumed)
  | .giveUp => (consumed, .nothing)

/-- The shared arena with one user. -/
def sequential (S : Storage w) : Sequential ℕ (Call w) Reply := ⟨Call.alone S⟩

theorem tryAllocAt_stopped {s : Stop} (h : prepare S l e = .error s) :
    tryAllocAt S level l e = .error s := by
  rw [tryAllocAt, h]
  rfl

theorem tryAllocAt_exhausted (h : prepare S l e = .ok none) :
    tryAllocAt S level l e = .ok (level, .error .exhausted) := by
  rw [tryAllocAt, h]
  rfl

theorem tryAllocAt_granted {a : Attempt} (h : prepare S l e = .ok (some a)) :
    tryAllocAt S e l e = .ok (a.newConsumed, .ok ⟨S.base + a.atAligned, a.newConsumed⟩) := by
  have he : a.expectConsumed = e := (prepare_sound h).2
  rw [tryAllocAt, h]
  simp only [ok_bind, he, compareExchange_self, granted_eq]
  rfl

theorem tryAllocAt_moved {a : Attempt} (h : prepare S l e = .ok (some a)) (hne : level ≠ e) :
    tryAllocAt S level l e = .ok (level, .error (.mismatch level)) := by
  have he : a.expectConsumed = e := (prepare_sound h).2
  rw [tryAllocAt, h]
  simp only [ok_bind, he, compareExchange_of_ne hne]
  rfl

/-- The loop is left in its first turn, whatever that turn does. -/
theorem tryAlloc_eq_tryAllocAt (S : Storage w) (level : ℕ) (l : Layout w) :
    tryAlloc S level l = match tryAllocAt S level l level with
      | .error s => .error s
      | .ok (n, .ok a) => .ok (n, .ok a)
      | .ok (n, .error _) => .ok (n, .error level) := by
  rw [tryAlloc, tryAllocLoop]
  split
  · rename_i h
    rw [h]
  · rename_i h
    rw [h]
  · rename_i h
    rw [h]
  · rename_i h
    exact absurd rfl (tryAllocAt_mismatch h).2.2

namespace Call

theorem alone_stopped {s : Stop} (h : c.Tries l e level) (hp : prepare S l e = .error s) :
    c.alone S level = (level, .stopped s) := by
  rcases h with ⟨hb, rfl⟩ | hb
  · simp only [alone, hb, tryAlloc_eq_tryAllocAt, tryAllocAt_stopped hp]
  · simp only [alone, hb, tryAllocAt_stopped hp]

theorem alone_exhausted (h : c.Tries l e level) (hp : prepare S l e = .ok none) :
    c.alone S level = (level, c.exhausted e) := by
  rcases h with ⟨hb, rfl⟩ | hb
  · simp only [alone, hb, tryAlloc_eq_tryAllocAt, tryAllocAt_exhausted hp]
  · simp only [alone, hb, tryAllocAt_exhausted hp]

theorem alone_granted {a : Attempt} (h : c.Tries l level level)
    (hp : prepare S l level = .ok (some a)) :
    c.alone S level = (a.newConsumed, c.succeed ⟨S.base + a.atAligned, a.newConsumed⟩) := by
  rcases h with ⟨hb, -⟩ | hb
  · simp only [alone, hb, tryAlloc_eq_tryAllocAt, tryAllocAt_granted hp]
  · simp only [alone, hb, tryAllocAt_granted hp]

theorem alone_moved {a : Attempt} (hb : c.body = .once l e) (hp : prepare S l e = .ok (some a))
    (hne : level ≠ e) : c.alone S level = (level, .failed (.mismatch level)) := by
  simp only [alone, hb, tryAllocAt_moved hp hne]

theorem alone_observed (hb : c.body = .observe) : c.alone S level = (level, c.observed level) := by
  simp only [alone, hb]

theorem alone_gaveUp (hb : c.body = .giveUp) : c.alone S level = (level, .nothing) := by
  simp only [alone, hb]

end Call

/-! ## One step -/

/-- What a thread does while the arena stands at `level` and moves it to `n`: it goes on
to wait for the call, or returns from it as the call alone would. -/
def Next.Explained (S : Storage w) (level : ℕ) (c : Call w) (n : ℕ) : Next w → Prop
  | .goto pc => n = level ∧ pc.call? = some c
  | .done r => c.alone S level = (n, r)

theorem attempt_explained (h : c.Tries l e level) :
    (attempt S c l e).Explained S level c level := by
  unfold attempt
  cases hp : prepare S l e with
  | error s => exact Call.alone_stopped h hp
  | ok o =>
    cases o with
    | none => exact Call.alone_exhausted h hp
    | some a => exact ⟨rfl, rfl⟩

theorem enter_explained (level : ℕ) (c : Call w) : (enter S c).Explained S level c level := by
  unfold enter
  cases hb : c.body with
  | loop l => exact ⟨rfl, rfl⟩
  | once l e => exact attempt_explained (Or.inr hb)
  | observe => exact ⟨rfl, rfl⟩
  | giveUp => exact Call.alone_gaveUp hb

theorem mismatched_explained {a : Attempt} (h : (Pc.exchanging c l a).Faithful S level)
    (hne : level ≠ a.expectConsumed) :
    (mismatched S c l level).Explained S level c level := by
  obtain ⟨hp, ⟨hb, -⟩ | hb⟩ := h
  · rw [mismatched, if_pos (Call.retries_of_loop hb)]
    exact attempt_explained (Or.inl ⟨hb, rfl⟩)
  · rw [mismatched, if_neg (by rw [Call.retries_of_once hb]; decide)]
    exact Call.alone_moved hb hp hne

namespace Arena

/-- What the threads wait for. -/
def waits (σ : Arena ι w) (t : ι) : Option (Call w) := (σ.threads t).pc.call?

/-- The call that thread `t` makes in its next step. -/
def invoked (σ : Arena ι w) (t : ι) : List (Interaction ι (Call w) Reply) :=
  match σ.threads t with
  | ⟨.idle, c :: _⟩ => [.call t c]
  | _ => []

/-- The calls that returned between two states. -/
def returned (σ σ' : Arena ι w) : List (Interaction ι (Call w) Reply) :=
  (σ'.log.take (σ'.log.length - σ.log.length)).reverse.map fun e => .ret e.thread e.call e.reply

/-- What is seen of a step. -/
def seen (x : Arena ι w × ι × Arena ι w) : List (Interaction ι (Call w) Reply) :=
  x.1.invoked x.2.1 ++ x.1.returned x.2.2

theorem returned_of_eq {σ σ' : Arena ι w} (h : σ'.log = σ.log) : σ.returned σ' = [] := by
  rw [returned, h, Nat.sub_self]
  rfl

theorem returned_of_cons {σ σ' : Arena ι w} {x : Entry ι w} (h : σ'.log = x :: σ.log) :
    σ.returned σ' = [.ret x.thread x.call x.reply] := by
  rw [returned, h, List.length_cons, Nat.add_sub_cancel_left]
  rfl

variable [DecidableEq ι]

theorem settle_waits_goto (σ : Arena ι w) (t : ι) (c : Call w) (todo : List (Call w))
    (pc : Pc w) :
    (σ.settle t c todo (.goto pc)).waits = Function.update σ.waits t pc.call? := by
  funext u
  by_cases hu : u = t
  · rw [hu, waits, settle_pc_goto, Function.update_self]
  · rw [waits, settle_threads_of_ne σ hu, Function.update_of_ne hu]
    rfl

theorem settle_waits_done (σ : Arena ι w) (t : ι) (c : Call w) (todo : List (Call w))
    (r : Reply) : (σ.settle t c todo (.done r)).waits = Function.update σ.waits t none := by
  funext u
  by_cases hu : u = t
  · rw [hu, waits, settle_pc_done, Function.update_self]
    rfl
  · rw [waits, settle_threads_of_ne σ hu, Function.update_of_ne hu]
    rfl

/-- What is asked of a step of thread `t`: the call alone explains what returns, and
the thread takes turns with itself. -/
structure Explains (S : Storage w) (σ : Arena ι w) (t : ι) (σ' : Arena ι w) : Prop where
  serves : (sequential S).Serves σ.consumed (Interaction.returns (seen (σ, t, σ'))) σ'.consumed
  alternates : Interaction.Alternates σ.waits (seen (σ, t, σ')) σ'.waits

/-- Thread `t` is in the call, or makes it now. -/
def Turn (σ : Arena ι w) (t : ι) (c : Call w) : Prop :=
  σ.invoked t = [.call t c] ∧ σ.waits t = none ∨ σ.invoked t = [] ∧ σ.waits t = some c

theorem settle_explains {σ : Arena ι w} {t : ι} (hturn : σ.Turn t c) (todo : List (Call w))
    {x : Next w} (hx : x.Explained S σ.consumed c n) :
    Explains S σ t (({ σ with consumed := n } : Arena ι w).settle t c todo x) := by
  generalize hσ' : ({ σ with consumed := n } : Arena ι w).settle t c todo x = σ'
  have hconsumed : σ'.consumed = n := by rw [← hσ', settle_consumed]
  cases x with
  | goto pc =>
    obtain ⟨rfl, hpc⟩ := hx
    have hlog : σ'.log = σ.log := by rw [← hσ']; rfl
    have hwaits : σ'.waits = Function.update σ.waits t (some c) := by
      rw [← hσ', settle_waits_goto, hpc]
    rcases hturn with ⟨hin, hnone⟩ | ⟨hin, hsome⟩
    · have hseen : seen (σ, t, σ') = [.call t c] := by
        rw [seen, returned_of_eq hlog, hin, List.append_nil]
      exact ⟨by rw [hseen]; exact hconsumed, by rw [hseen]; exact ⟨hnone, hwaits⟩⟩
    · have hseen : seen (σ, t, σ') = [] := by
        rw [seen, returned_of_eq hlog, hin, List.append_nil]
      refine ⟨by rw [hseen]; exact hconsumed, ?_⟩
      rw [← hsome, Function.update_eq_self] at hwaits
      rw [hseen]
      exact hwaits
  | done r =>
    have hlog : σ'.log = ⟨t, c, r⟩ :: σ.log := by rw [← hσ', settle_log_done]
    have hwaits : σ'.waits = Function.update σ.waits t none := by
      rw [← hσ', settle_waits_done]
      rfl
    have hserves : (sequential S).Serves σ.consumed [(c, r)] σ'.consumed := by
      rw [hconsumed]
      exact Sequential.Serves.single hx
    rcases hturn with ⟨hin, hnone⟩ | ⟨hin, hsome⟩
    · have hseen : seen (σ, t, σ') = [.call t c, .ret t c r] := by
        rw [seen, returned_of_cons hlog, hin]
        rfl
      refine ⟨by rw [hseen]; exact hserves, ?_⟩
      rw [hseen]
      refine ⟨hnone, Function.update_self t _ _, ?_⟩
      rw [hwaits, Function.update_idem, Interaction.Alternates]
    · have hseen : seen (σ, t, σ') = [.ret t c r] := by
        rw [seen, returned_of_cons hlog, hin]
        rfl
      refine ⟨by rw [hseen]; exact hserves, ?_⟩
      rw [hseen]
      exact ⟨hsome, hwaits⟩

/-- **What returns in a step is what the call alone returns.** -/
theorem step_explains {σ : Arena ι w} (h : σ.Tracked S) (t : ι) :
    Explains S σ t (σ.step S t) := by
  have ht := h t
  unfold step
  generalize hth : σ.threads t = th at ht
  obtain ⟨pc, todo⟩ := th
  cases pc with
  | idle =>
    cases todo with
    | nil =>
      have hseen : seen (σ, t, σ) = [] := by
        rw [seen, returned_of_eq rfl, invoked, hth]
        rfl
      exact ⟨by rw [hseen]; rfl, by rw [hseen]; rfl⟩
    | cons c todo =>
      refine settle_explains (Or.inl ⟨?_, ?_⟩) todo (enter_explained σ.consumed c)
      · rw [invoked, hth]
      · rw [waits, hth]
        rfl
  | loading c l =>
    have hturn : σ.Turn t c := Or.inr ⟨by rw [invoked, hth], by rw [waits, hth]; rfl⟩
    exact settle_explains hturn todo (attempt_explained (Or.inl ⟨ht, rfl⟩))
  | observing c =>
    have hturn : σ.Turn t c := Or.inr ⟨by rw [invoked, hth], by rw [waits, hth]; rfl⟩
    exact settle_explains hturn todo (x := .done (c.observed σ.consumed))
      (Call.alone_observed ht)
  | exchanging c l a =>
    have hturn : σ.Turn t c := Or.inr ⟨by rw [invoked, hth], by rw [waits, hth]; rfl⟩
    show Explains S σ t (exchange S σ t c todo l a)
    by_cases heq : σ.consumed = a.expectConsumed
    · obtain ⟨hp, hb⟩ := ht
      have htries : c.Tries l σ.consumed σ.consumed := by
        rcases hb with ⟨hb, -⟩ | hb
        · exact Or.inl ⟨hb, rfl⟩
        · exact Or.inr (by rw [heq]; exact hb)
      rw [← heq] at hp
      have hex : exchange S σ t c todo l a =
          ({ σ with consumed := a.newConsumed } : Arena ι w).settle t c todo
            (.done (c.succeed ⟨S.base + a.atAligned, a.newConsumed⟩)) := by
        unfold exchange finish
        rw [heq, compareExchange_self, granted_eq]
      rw [hex]
      exact settle_explains hturn todo (Call.alone_granted htries hp)
    · rw [exchange_of_ne heq]
      exact settle_explains hturn todo (mismatched_explained ht heq)

/-! ## Programs -/

theorem settle_todo (σ : Arena ι w) (t : ι) (c : Call w) (todo : List (Call w)) (x : Next w) :
    ((σ.settle t c todo x).threads t).todo = todo ∨
      ((σ.settle t c todo x).threads t).todo = [] := by
  cases x with
  | goto pc => exact Or.inl (by simp [settle])
  | done r => cases r <;> simp [settle]

/-- Between the two states thread `t` made these calls, and its program goes on behind
them unless it stopped. -/
def Follows (t : ι) (σ : Arena ι w) (calls : List (Call w)) (σ' : Arena ι w) : Prop :=
  ∃ rest, (σ.threads t).todo = calls ++ rest ∧
    ((σ'.threads t).todo = rest ∨ (σ'.threads t).todo = [])

omit [DecidableEq ι] in
theorem Follows.trans {t : ι} {σ σ' σ'' : Arena ι w} {cs cs' : List (Call w)}
    (h : Follows t σ cs σ') (h' : Follows t σ' cs' σ'') : Follows t σ (cs ++ cs') σ'' := by
  obtain ⟨rest, hrest, htodo⟩ := h
  obtain ⟨rest', hrest', htodo'⟩ := h'
  rcases htodo with hgo | hstop
  · exact ⟨rest', by rw [hrest, ← hgo, hrest', List.append_assoc], htodo'⟩
  · rw [hstop] at hrest'
    obtain ⟨rfl, rfl⟩ := List.append_eq_nil_iff.mp hrest'.symm
    refine ⟨rest, by rw [List.append_nil, hrest], Or.inr ?_⟩
    exact htodo'.elim id id

/-- What is seen of a step holds one call at most, the one that is made in it. -/
theorem callsOf_seen (S : Storage w) (σ : Arena ι w) (t u : ι) :
    Interaction.callsOf u (seen (σ, t, σ.step S t)) = Interaction.callsOf u (σ.invoked t) := by
  have hnone : ∀ xs : List (Entry ι w), Interaction.callsOf u
      (xs.map fun e => (.ret e.thread e.call e.reply : Interaction ι (Call w) Reply)) = [] := by
    intro xs
    induction xs with
    | nil => rfl
    | cons x xs ih => exact ih
  rw [seen, Interaction.callsOf_append, returned, hnone, List.append_nil]

/-- **A step keeps every thread to its program.** -/
theorem step_follows (S : Storage w) (σ : Arena ι w) (t u : ι) :
    Follows u σ (Interaction.callsOf u (seen (σ, t, σ.step S t))) (σ.step S t) := by
  rw [callsOf_seen]
  unfold step invoked
  generalize hth : σ.threads t = th
  obtain ⟨pc, todo⟩ := th
  by_cases hu : u = t
  · subst hu
    have hgo : ∀ (σ' : Arena ι w) (c : Call w) (x : Next w),
        Follows u σ [] (σ'.settle u c todo x) := by
      intro σ' c x
      exact ⟨todo, by rw [hth]; rfl, settle_todo σ' u c todo x⟩
    cases pc with
    | idle =>
      cases todo with
      | nil => exact ⟨_, rfl, Or.inl rfl⟩
      | cons c todo =>
        refine ⟨todo, ?_, settle_todo σ u c todo (enter S c)⟩
        rw [hth, Interaction.callsOf, if_pos rfl]
        rfl
    | loading c l => exact hgo σ c _
    | observing c => exact hgo σ c _
    | exchanging c l a =>
      simp only [exchange]
      split
      · exact hgo _ c _
      · exact hgo _ c _
  · have hstay : ∀ (σ' : Arena ι w) (c : Call w) (todo : List (Call w)) (x : Next w),
        σ'.threads u = σ.threads u → Follows u σ [] (σ'.settle t c todo x) := by
      intro σ' c todo x hsame
      exact ⟨_, rfl, Or.inl (by rw [settle_threads_of_ne σ' hu, hsame])⟩
    cases pc with
    | idle =>
      cases todo with
      | nil => exact ⟨_, rfl, Or.inl rfl⟩
      | cons c todo =>
        simp only [Interaction.callsOf, if_neg (Ne.symm hu)]
        exact hstay σ c todo _ rfl
    | loading c l => exact hstay σ c todo _ rfl
    | observing c => exact hstay σ c todo _ rfl
    | exchanging c l a =>
      simp only [exchange]
      split
      · exact hstay _ c todo _ rfl
      · exact hstay _ c todo _ rfl

/-! ## Runs -/

/-- What one thread called is the beginning of its program. -/
theorem run_follows {σ₀ σ : Arena ι w} {run : List (Arena ι w × ι × Arena ι w)}
    (h : (machine S).Run σ₀ run σ) (u : ι) :
    Follows u σ₀ (Interaction.callsOf u (Machine.history seen run)) σ := by
  induction h with
  | refl => exact ⟨_, rfl, Or.inl rfl⟩
  | @tail σ σ' run t hrun hstep ih =>
    obtain rfl : σ' = σ.step S t := hstep
    rw [Machine.history, List.flatMap_append, List.flatMap_singleton, Interaction.callsOf_append]
    exact ih.trans (step_follows S σ t u)

variable {σ₀ σ : Arena ι w} {run : List (Arena ι w × ι × Arena ι w)}

theorem run_linearizable (h₀ : (machine S).Reachable σ₀) (h : (machine S).Run σ₀ run σ) :
    Linearizable (sequential S) σ₀.consumed (Machine.history seen run) σ.consumed := by
  refine h.linearizes (fun s t s' hs hstep => ?_) h₀
  obtain rfl : s' = s.step S t := hstep
  exact (step_explains (reachable_tracked hs) t).serves

theorem run_alternates (h₀ : (machine S).Reachable σ₀) (h : (machine S).Run σ₀ run σ) :
    Interaction.Alternates σ₀.waits (Machine.history seen run) σ.waits := by
  refine h.alternates (fun s t s' hs hstep => ?_) h₀
  obtain rfl : s' = s.step S t := hstep
  exact (step_explains (reachable_tracked hs) t).alternates

/-- **The shared arena is linearizable.**  In every interleaving of any threads, the calls
that returned have the replies and leave the level that they would have one after the
other, each without interruption, in an order that agrees with real time.  Every thread
makes the calls of its program in their order, one at a time, and what it waits for is
the call it is in. -/
theorem linearizable (h₀ : (machine S).init σ₀) (h : (machine S).Run σ₀ run σ) :
    Linearizable (sequential S) σ₀.consumed (Machine.history seen run) σ.consumed ∧
      Interaction.Alternates σ₀.waits (Machine.history seen run) σ.waits ∧
      ∀ t, Interaction.callsOf t (Machine.history seen run) <+: (σ₀.threads t).todo := by
  refine ⟨run_linearizable (.of_init h₀) h, run_alternates (.of_init h₀) h, fun t => ?_⟩
  obtain ⟨rest, hrest, -⟩ := run_follows h t
  exact ⟨rest, hrest.symm⟩

/-- Two threads ask for three bytes at a multiple of four.  The second one loses the race
for level `0` and is granted what the first one left. -/
theorem linearizable_two_threads :
    let S : Storage 16 := ⟨4096, 16, by decide, by decide⟩
    let l : Layout 16 := ⟨3, 4, ⟨2, rfl⟩, by decide⟩
    let σ₀ : Arena Bool 16 := start (fun _ => [.tryAlloc l]) 0
    let σ := σ₀.run S [true, false, true, false, true, false, false]
    ∃ run, (machine S).Run σ₀ run σ ∧
      Linearizable (sequential S) 0 (Machine.history seen run) 7 := by
  intro S l σ₀ σ
  obtain ⟨run, hrun⟩ := run_spec S [true, false, true, false, true, false, false] σ₀
  refine ⟨run, hrun, ?_⟩
  have hlevel : σ.consumed = 7 := by decide
  have h := (linearizable ⟨_, 0, Nat.zero_le _, rfl⟩ hrun).1
  rw [show (σ₀.run S _).consumed = 7 from hlevel] at h
  exact h

end Arena

/-! ## The unsynchronized arena instead -/

namespace Call

/-- What the assertions of an attempt ask of a call. -/
def Valid (S : Storage w) (c : Call w) : Prop :=
  match c.body with
  | .loop layout => 0 < layout.size
  | .once layout level => 0 < layout.size ∧ level ≤ S.len
  | .observe => True
  | .giveUp => True

/-- An entry point, over the allocation of the unsynchronized arena. -/
def unsynchronized (b : Build) (S : Storage w) (index : ℕ) (c : Call w) : ℕ × Reply :=
  match c.body with
  | .loop layout =>
    match Unsync.tryAlloc b S index layout with
    | .ok (index, .ok a) => (index, c.succeed a)
    | .ok (index, .error level) => (index, c.exhausted level)
    | .error s => (index, .stopped s)
  | .once layout level =>
    match Unsync.tryAllocAt b S index layout level with
    | .ok (index, .ok a) => (index, c.succeed a)
    | .ok (index, .error .exhausted) => (index, c.exhausted level)
    | .ok (index, .error (.mismatch observed)) => (index, .failed (.mismatch observed))
    | .error s => (index, .stopped s)
  | .observe => (index, c.observed index)
  | .giveUp => (index, .nothing)

theorem unsynchronized_eq (b : Build) (hlevel : level ≤ S.len) (hc : c.Valid S) :
    c.unsynchronized b S level = c.alone S level := by
  unfold Valid at hc
  unfold unsynchronized alone
  cases hb : c.body with
  | loop l =>
    rw [hb] at hc
    simp only [tryAlloc_eq hc hlevel, Unsync.tryAlloc_eq hc hlevel]
  | once l e =>
    rw [hb] at hc
    simp only [tryAllocAt_eq_of_le hc.1 hc.2, Unsync.tryAllocAt_eq hc.1 hc.2]
  | observe => rfl
  | giveUp => rfl

/-- A valid call leaves the level inside the arena. -/
theorem alone_le (hlevel : level ≤ S.len) (hc : c.Valid S) : (c.alone S level).1 ≤ S.len := by
  unfold Valid at hc
  unfold alone
  cases hb : c.body with
  | loop l =>
    rw [hb] at hc
    simp only [tryAlloc_eq hc hlevel]
    by_cases hfit : placement S l level + l.size ≤ S.len
    · simp only [if_pos hfit]
      exact hfit
    · simp only [if_neg hfit]
      exact hlevel
  | once l e =>
    rw [hb] at hc
    simp only [tryAllocAt_eq_of_le hc.1 hc.2]
    by_cases hfit : placement S l e + l.size ≤ S.len
    · simp only [if_pos hfit]
      by_cases he : level = e
      · simp only [if_pos he]
        exact hfit
      · simp only [if_neg he]
        exact hlevel
    · simp only [if_neg hfit]
      exact hlevel
  | observe => exact hlevel
  | giveUp => exact hlevel

end Call

/-- The unsynchronized arena. -/
def unsynchronized (b : Build) (S : Storage w) : Sequential ℕ (Call w) Reply :=
  ⟨Call.unsynchronized b S⟩

/-- **Sharing the arena does not show.**  If the threads make valid requests only, then
in every interleaving they see what they would see of an unsynchronized arena that they
use one after the other, in any build of it. -/
theorem Arena.linearizable_unsync [DecidableEq ι] (b : Build) {σ₀ σ : Arena ι w}
    {run : List (Arena ι w × ι × Arena ι w)} (h₀ : (Arena.machine S).init σ₀)
    (h : (Arena.machine S).Run σ₀ run σ) (hvalid : ∀ t, ∀ c ∈ (σ₀.threads t).todo, c.Valid S) :
    Linearizable (unsynchronized b S) σ₀.consumed (Machine.history seen run) σ.consumed := by
  have halt := Arena.run_alternates (.of_init h₀) h
  refine Linearizable.congr (I := (· ≤ S.len)) (P := Call.Valid S) ?_ ?_ ?_ ?_
    (Arena.run_linearizable (.of_init h₀) h)
  · exact fun level c hlevel hc => Call.unsynchronized_eq b hlevel hc
  · exact fun level c hlevel hc => Call.alone_le hlevel hc
  · obtain ⟨program, consumed, hc, rfl⟩ := h₀
    exact hc
  · intro x hx
    rcases halt.called hx with ⟨t, ht⟩ | ⟨t, ht⟩
    · obtain ⟨program, consumed, -, rfl⟩ := h₀
      exact absurd ht (by simp [Arena.waits, Arena.start, Pc.call?])
    · obtain ⟨rest, hrest, -⟩ := Arena.run_follows h t
      exact hvalid t _ (by rw [hrest]; exact List.mem_append_left _ ht)

/-- One thread asks for two bytes at level `0`, another for three bytes wherever they fit.
The release build of the unsynchronized arena gives the same replies. -/
theorem Arena.linearizable_unsync_two_threads :
    let S : Storage 16 := ⟨4096, 16, by decide, by decide⟩
    let two : Layout 16 := ⟨2, 2, ⟨1, rfl⟩, by decide⟩
    let three : Layout 16 := ⟨3, 4, ⟨2, rfl⟩, by decide⟩
    let σ₀ : Arena Bool 16 :=
      start (fun t => if t then [.allocAt two 0] else [.tryAlloc three]) 0
    let σ := σ₀.run S [true, false, false, false, true, true]
    ∃ run, (Arena.machine S).Run σ₀ run σ ∧
      Linearizable (unsynchronized .release S) 0 (Machine.history seen run) σ.consumed := by
  intro S two three σ₀ σ
  obtain ⟨run, hrun⟩ := run_spec S [true, false, false, false, true, true] σ₀
  refine ⟨run, hrun, linearizable_unsync .release ⟨_, 0, Nat.zero_le _, rfl⟩ hrun ?_⟩
  intro t c hc
  cases t with
  | true =>
    obtain rfl : c = .allocAt two 0 := by simpa [σ₀, start] using hc
    exact ⟨by decide, by decide⟩
  | false =>
    obtain rfl : c = .tryAlloc three := by simpa [σ₀, start] using hc
    show 0 < three.size
    decide

end Bump
end StaticAlloc
