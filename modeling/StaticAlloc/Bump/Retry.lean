import StaticAlloc.Bump.Exhaustion

/-!
# The retry loop ends, and somebody always gets on

The loop of `try_alloc` has no counter of its own.  What bounds it is the counter
of the arena: an attempt is made at a level read off that counter, its exchange
fails only when the counter has moved since, and then the next attempt is made at
the level found, which is higher.

`attempts` collects the levels tried by one call along a schedule.  They increase
strictly and stay inside the arena (`attempts_increasing`), so there are no more
of them than levels above the first; and each step of the thread begins an attempt
or returns, so a call that is given enough steps returns (`returned_of_loading`).
The counter moves only over a block somebody was given (`exists_grant`), so
between the beginning of an attempt and its failure another thread's allocation
succeeded.
-/

namespace StaticAlloc
namespace Bump
namespace Arena

open Toolkit

variable {w : ℕ} {ι : Type*} {S : Storage w} {l : Layout w} {c : Call w} [DecidableEq ι]
  {σ : Arena ι w} {t u : ι}

/-! ## The attempts of a call -/

omit [DecidableEq ι] in
/-- The level at which thread `t` begins an attempt with its next step: the one it
loads, or in the retry loop the one a failed exchange finds. -/
def attemptLevel (σ : Arena ι w) (t : ι) : Option ℕ :=
  match (σ.threads t).pc with
  | .loading _ _ => some σ.consumed
  | .exchanging c _ a =>
    if σ.consumed ≠ a.expectConsumed ∧ c.retries then some σ.consumed else none
  | _ => none

/-- The levels at which thread `t` begins attempts along a schedule, up to the
return of the call it is in. -/
def attempts (S : Storage w) (t : ι) (σ : Arena ι w) : List ι → List ℕ
  | [] => []
  | u :: schedule =>
    match (σ.threads t).pc with
    | .idle => []
    | _ => (if u = t then (σ.attemptLevel t).toList else []) ++
      attempts S t (σ.step S u) schedule

/-- Along the schedule the call of thread `t` returns. -/
def Returned (S : Storage w) (t : ι) (c : Call w) (σ : Arena ι w) (schedule : List ι) : Prop :=
  ∃ before after r, schedule = before ++ t :: after ∧
    ((σ.run S before).step S t).log = ⟨t, c, r⟩ :: (σ.run S before).log

/-! ## One step of a thread, seen by the thread -/

theorem attempt_goto {e : ℕ} {pc : Pc w} (h : attempt S c l e = .goto pc) :
    ∃ a, pc = .exchanging c l a ∧ a.expectConsumed = e := by
  unfold attempt at h
  cases hp : prepare S l e with
  | error s =>
    rw [hp] at h
    exact absurd h (by simp)
  | ok o =>
    cases o with
    | none =>
      rw [hp] at h
      exact absurd h (by simp)
    | some a =>
      rw [hp] at h
      exact ⟨a, (Next.goto.inj h).symm, (prepare_sound hp).2⟩

/-- A step of another thread leaves a thread where it is. -/
theorem step_threads_of_ne (h : u ≠ t) : (σ.step S u).threads t = σ.threads t := by
  have hsettle : ∀ (σ : Arena ι w) (c : Call w) (todo : List (Call w)) (x : Next w),
      (σ.settle u c todo x).threads t = σ.threads t :=
    fun σ c todo x => settle_threads_of_ne σ h.symm c todo x
  unfold step
  generalize σ.threads u = th
  obtain ⟨pc, todo⟩ := th
  cases pc with
  | idle =>
    cases todo with
    | nil => rfl
    | cons c todo => exact hsettle σ c todo _
  | loading c l => exact hsettle σ c todo _
  | observing c => exact hsettle σ c todo _
  | exchanging c l a =>
    show (exchange S σ u c todo l a).threads t = σ.threads t
    unfold exchange
    split <;> exact hsettle _ c todo _

theorem run_threads_of_not_mem {schedule : List ι} (h : t ∉ schedule) :
    (σ.run S schedule).threads t = σ.threads t := by
  induction schedule generalizing σ with
  | nil => rfl
  | cons u schedule ih =>
    rw [run_cons, ih (fun hmem => h (List.mem_cons_of_mem u hmem))]
    exact step_threads_of_ne fun hu => h (hu ▸ List.mem_cons_self)

/-- Where a thread in the loop is after an attempt at `e`: it waits to exchange,
or it has returned. -/
structure Attempted (S : Storage w) (σ σ' : Arena ι w) (t : ι) (c : Call w) (l : Layout w)
    (e : ℕ) : Prop where
  consumed : σ'.consumed = σ.consumed
  next : (∃ a, (σ'.threads t).pc = .exchanging c l a ∧ a.expectConsumed = e) ∨
    (σ'.threads t).pc = .idle ∧ ∃ r, σ'.log = ⟨t, c, r⟩ :: σ.log

theorem settle_attempted (σ : Arena ι w) (t : ι) (todo : List (Call w)) (e : ℕ) :
    Attempted S σ (σ.settle t c todo (attempt S c l e)) t c l e := by
  refine ⟨settle_consumed σ t c todo _, ?_⟩
  cases hx : attempt S c l e with
  | goto pc =>
    obtain ⟨a, rfl, ha⟩ := attempt_goto hx
    exact Or.inl ⟨a, settle_pc_goto σ t c todo _, ha⟩
  | done r => exact Or.inr ⟨settle_pc_done σ t c todo r, r, settle_log_done σ t c todo r⟩

/-- The load begins an attempt. -/
theorem step_loading (h : (σ.threads t).pc = .loading c l) :
    Attempted S σ (σ.step S t) t c l σ.consumed := by
  have hstep : σ.step S t =
      σ.settle t c (σ.threads t).todo (attempt S c l σ.consumed) := by
    simp only [step, h]
  rw [hstep]
  exact settle_attempted σ t _ σ.consumed

/-- A failed exchange in the loop begins an attempt. -/
theorem step_exchanging_of_ne {a : Attempt} (h : (σ.threads t).pc = .exchanging c l a)
    (hc : c.retries = true) (hne : σ.consumed ≠ a.expectConsumed) :
    Attempted S σ (σ.step S t) t c l σ.consumed := by
  have hstep : σ.step S t =
      σ.settle t c (σ.threads t).todo (attempt S c l σ.consumed) := by
    simp only [step, h]
    rw [exchange_of_ne hne, mismatched, if_pos hc]
  rw [hstep]
  exact settle_attempted σ t _ σ.consumed

/-- A successful exchange returns. -/
theorem step_exchanging_of_eq {a : Attempt} (hσ : σ.Tracked S)
    (h : (σ.threads t).pc = .exchanging c l a) (heq : σ.consumed = a.expectConsumed) :
    ((σ.step S t).threads t).pc = .idle ∧ ∃ r, (σ.step S t).log = ⟨t, c, r⟩ :: σ.log := by
  have hth : σ.threads t = ⟨.exchanging c l a, (σ.threads t).todo⟩ := by rw [← h]
  have hf := hσ t
  rw [h] at hf
  obtain ⟨r, hlogs, hex⟩ := exchange_logs hth hf heq
  have hstep : σ.step S t = exchange S σ t c (σ.threads t).todo l a := by
    simp only [step, h]
  rw [hstep]
  refine ⟨?_, r, hlogs.log⟩
  rw [hex]
  exact settle_pc_done _ t c _ r

/-- A call that is not in the loop returns with its next atomic step. -/
theorem step_idle_of_none (hσ : σ.Tracked S) (h : σ.attemptLevel t = none) :
    ((σ.step S t).threads t).pc = .idle ∨ (σ.threads t).pc = .idle := by
  unfold attemptLevel at h
  cases hpc : (σ.threads t).pc with
  | idle => exact Or.inr rfl
  | loading c l => rw [hpc] at h; exact absurd h (by simp)
  | observing c =>
    have hstep : σ.step S t = σ.settle t c (σ.threads t).todo (.done (c.observed σ.consumed)) := by
      simp only [step, hpc]
    rw [hstep]
    exact Or.inl (settle_pc_done σ t c _ _)
  | exchanging c l a =>
    rw [hpc] at h
    by_cases heq : σ.consumed = a.expectConsumed
    · exact Or.inl (step_exchanging_of_eq hσ hpc heq).1
    · have hretries : ¬ c.retries = true := fun hc => by
        simp only [if_pos (And.intro heq hc)] at h
        exact absurd h (by simp)
      have hstep : σ.step S t = σ.settle t c (σ.threads t).todo
          (.done (.failed (.mismatch σ.consumed))) := by
        simp only [step, hpc]
        rw [exchange_of_ne heq, mismatched, if_neg hretries]
      rw [hstep]
      exact Or.inl (settle_pc_done σ t c _ _)

/-- A step that begins an attempt. -/
theorem step_attempted (hσ : σ.Tracked S) {e : ℕ} (h : σ.attemptLevel t = some e) :
    e = σ.consumed ∧ ∃ c l, (σ.threads t).pc.call? = some c ∧ c.body = .loop l ∧
      Attempted S σ (σ.step S t) t c l e := by
  have hf := hσ t
  unfold attemptLevel at h
  cases hpc : (σ.threads t).pc with
  | idle => rw [hpc] at h; exact absurd h (by simp)
  | observing c => rw [hpc] at h; exact absurd h (by simp)
  | loading c l =>
    rw [hpc] at h hf
    obtain rfl : σ.consumed = e := Option.some.inj h
    exact ⟨rfl, c, l, rfl, hf, step_loading hpc⟩
  | exchanging c l a =>
    rw [hpc] at h hf
    by_cases hcond : σ.consumed ≠ a.expectConsumed ∧ c.retries = true
    · simp only [if_pos hcond] at h
      obtain rfl : σ.consumed = e := Option.some.inj h
      refine ⟨rfl, c, l, rfl, ?_, step_exchanging_of_ne hpc hcond.2 hcond.1⟩
      rcases hf.2 with ⟨hb, -⟩ | hb
      · exact hb
      · exact absurd hcond.2 (by rw [Call.retries_of_once hb]; decide)
    · simp only [if_neg hcond] at h
      exact absurd h (by simp)

/-! ## The levels tried -/

omit [DecidableEq ι] in
/-- The level a waiting thread has already tried, in the retry loop. -/
theorem lt_attemptLevel (hσ : σ.Tracked S) {e : ℕ} (h : σ.attemptLevel t = some e) {a : Attempt}
    (hpc : (σ.threads t).pc = .exchanging c l a) : a.expectConsumed < e := by
  have hf := hσ t
  rw [hpc] at hf
  rw [attemptLevel, hpc] at h
  by_cases hcond : σ.consumed ≠ a.expectConsumed ∧ c.retries = true
  · simp only [if_pos hcond] at h
    obtain rfl : σ.consumed = e := Option.some.inj h
    rcases hf.2 with ⟨-, hle⟩ | hb
    · omega
    · exact absurd hcond.2 (by rw [Call.retries_of_once hb]; decide)
  · simp only [if_neg hcond] at h
    exact absurd h (by simp)

theorem attempts_of_idle (h : (σ.threads t).pc = .idle) (schedule : List ι) :
    attempts S t σ schedule = [] := by
  cases schedule with
  | nil => rfl
  | cons u schedule => simp only [attempts, h]

theorem attempts_cons_of_ne (h : u ≠ t) (schedule : List ι) :
    attempts S t σ (u :: schedule) = attempts S t (σ.step S u) schedule := by
  cases hpc : (σ.threads t).pc with
  | idle =>
    rw [attempts_of_idle hpc, attempts_of_idle]
    rw [step_threads_of_ne h, hpc]
  | _ => simp only [attempts, hpc, if_neg h, List.nil_append]

theorem attempts_cons_self (hσ : σ.Tracked S) (schedule : List ι) :
    attempts S t σ (t :: schedule) = match σ.attemptLevel t with
      | none => []
      | some e => e :: attempts S t (σ.step S t) schedule := by
  cases hlevel : σ.attemptLevel t with
  | none =>
    rcases step_idle_of_none hσ hlevel with h | h
    · cases hpc : (σ.threads t).pc with
      | idle => exact attempts_of_idle hpc _
      | _ =>
        simp only [attempts, hpc, hlevel, if_pos]
        rw [attempts_of_idle h]
        rfl
    · exact attempts_of_idle h _
  | some e =>
    cases hpc : (σ.threads t).pc with
    | idle =>
      rw [attemptLevel, hpc] at hlevel
      exact absurd hlevel (by simp)
    | _ =>
      simp only [attempts, hpc, hlevel, if_pos]
      rfl

/-- **The levels tried increase strictly,** they are above the level already
tried, and none is beyond the end of the arena. -/
theorem attempts_increasing (schedule : List ι) (hσ : (machine S).Reachable σ) :
    (attempts S t σ schedule).Pairwise (· < ·) ∧
      ∀ x ∈ attempts S t σ schedule, x ≤ S.len ∧
        ∀ c l a, (σ.threads t).pc = .exchanging c l a → a.expectConsumed < x := by
  induction schedule generalizing σ with
  | nil => exact ⟨List.Pairwise.nil, fun x hx => absurd hx List.not_mem_nil⟩
  | cons u schedule ih =>
    have htracked := reachable_tracked hσ
    obtain ⟨hpair, hmem⟩ := ih (hσ.tail (l := u) rfl)
    by_cases hu : u = t
    · rw [hu] at hpair hmem ⊢
      rw [attempts_cons_self htracked]
      cases hlevel : σ.attemptLevel t with
      | none => exact ⟨List.Pairwise.nil, fun x hx => absurd hx List.not_mem_nil⟩
      | some e =>
        obtain ⟨rfl, c, l, -, -, hatt⟩ := step_attempted htracked hlevel
        have hrest : ∀ x ∈ attempts S t (σ.step S t) schedule, σ.consumed < x := by
          intro x hx
          rcases hatt.next with ⟨a, hpc, ha⟩ | ⟨hidle, -⟩
          · rw [← ha]
            exact (hmem x hx).2 c l a hpc
          · rw [attempts_of_idle hidle] at hx
            exact absurd hx List.not_mem_nil
        refine ⟨List.pairwise_cons.mpr ⟨hrest, hpair⟩, fun x hx => ?_⟩
        have hle : σ.consumed ≤ x := by
          rcases List.mem_cons.mp hx with rfl | hx
          · exact le_rfl
          · exact (hrest x hx).le
        refine ⟨?_, fun c l a hpc => (lt_attemptLevel htracked hlevel hpc).trans_le hle⟩
        rcases List.mem_cons.mp hx with rfl | hx
        · exact (reachable_invariant hσ).level_le
        · exact (hmem x hx).1
    · rw [attempts_cons_of_ne hu]
      refine ⟨hpair, fun x hx => ?_⟩
      obtain ⟨hle, habove⟩ := hmem x hx
      rw [step_threads_of_ne hu] at habove
      exact ⟨hle, habove⟩

/-- A strictly increasing list of numbers up to `N` has no more members than there
are numbers from its head on. -/
theorem add_length_le_of_pairwise_lt {N first : ℕ} {rest : List ℕ}
    (h : (first :: rest).Pairwise (· < ·)) (hN : ∀ x ∈ first :: rest, x ≤ N) :
    first + rest.length ≤ N := by
  induction rest generalizing first with
  | nil => exact hN first List.mem_cons_self
  | cons second rest ih =>
    obtain ⟨hhead, htail⟩ := List.pairwise_cons.mp h
    have hlt := hhead second List.mem_cons_self
    have := ih htail fun x hx => hN x (List.mem_cons_of_mem first hx)
    rw [List.length_cons]
    omega

/-! ## The call returns -/

theorem Returned.of_step {r : Reply} (h : (σ.step S t).log = ⟨t, c, r⟩ :: σ.log)
    (schedule : List ι) : Returned S t c σ (t :: schedule) :=
  ⟨[], schedule, r, rfl, h⟩

theorem Returned.cons {schedule : List ι} (h : Returned S t c (σ.step S u) schedule) :
    Returned S t c σ (u :: schedule) := by
  obtain ⟨before, after, r, rfl, hlog⟩ := h
  exact ⟨u :: before, after, r, rfl, hlog⟩

/-- **A waiting thread returns within as many of its own steps as there are levels
above the one it has tried.** -/
theorem returned_of_exchanging (schedule : List ι) (hσ : (machine S).Reachable σ) {a : Attempt}
    (hpc : (σ.threads t).pc = .exchanging c l a) (hb : c.body = .loop l)
    (hcount : 1 + (S.len - a.expectConsumed) ≤ schedule.count t) :
    Returned S t c σ schedule := by
  induction schedule generalizing σ a with
  | nil =>
    rw [List.count_nil] at hcount
    omega
  | cons u schedule ih =>
    have htracked := reachable_tracked hσ
    have hσ' : (machine S).Reachable (σ.step S u) := hσ.tail rfl
    by_cases hu : u = t
    · rw [hu] at hσ' ⊢
      rw [hu, List.count_cons_self] at hcount
      by_cases heq : σ.consumed = a.expectConsumed
      · obtain ⟨-, r, hr⟩ := step_exchanging_of_eq htracked hpc heq
        exact Returned.of_step hr schedule
      · have hatt := step_exchanging_of_ne (S := S) hpc (Call.retries_of_loop hb) heq
        rcases hatt.next with ⟨a', hpc', ha'⟩ | ⟨-, r, hr⟩
        · have hlt := lt_attemptLevel htracked (e := σ.consumed)
            (by rw [attemptLevel, hpc]; exact if_pos ⟨heq, Call.retries_of_loop hb⟩) hpc
          have hle := (reachable_invariant hσ).level_le
          exact (ih hσ' hpc' (by omega)).cons
        · exact Returned.of_step hr schedule
    · rw [List.count_cons_of_ne hu] at hcount
      exact (ih hσ' (by rw [step_threads_of_ne hu]; exact hpc) hcount).cons

/-- **A thread about to enter the loop returns within two more steps than there are
levels above the arena's.** -/
theorem returned_of_loading (schedule : List ι) (hσ : (machine S).Reachable σ)
    (hpc : (σ.threads t).pc = .loading c l)
    (hcount : 2 + (S.len - σ.consumed) ≤ schedule.count t) : Returned S t c σ schedule := by
  induction schedule generalizing σ with
  | nil =>
    rw [List.count_nil] at hcount
    omega
  | cons u schedule ih =>
    have htracked := reachable_tracked hσ
    have hσ' : (machine S).Reachable (σ.step S u) := hσ.tail rfl
    by_cases hu : u = t
    · rw [hu] at hσ' ⊢
      rw [hu, List.count_cons_self] at hcount
      have hf := htracked t
      rw [hpc] at hf
      rcases (step_loading (S := S) hpc).next with ⟨a, hpc', ha⟩ | ⟨-, r, hr⟩
      · exact (returned_of_exchanging schedule hσ' hpc' hf (by omega)).cons
      · exact Returned.of_step hr schedule
    · rw [List.count_cons_of_ne hu] at hcount
      have hle := step_consumed_le (reachable_invariant hσ).placed u
      exact (ih hσ' (by rw [step_threads_of_ne hu]; exact hpc) (by omega)).cons

/-! ## Somebody gets on -/

/-- Along the schedule a thread of it is given a block, and the level rises. -/
def Granted (S : Storage w) (σ : Arena ι w) (schedule : List ι) : Prop :=
  ∃ before u after c r b, schedule = before ++ u :: after ∧
    ((σ.run S before).step S u).log = ⟨u, c, r⟩ :: (σ.run S before).log ∧
    Entry.block? (⟨u, c, r⟩ : Entry ι w) = some b ∧
    (σ.run S before).consumed < ((σ.run S before).step S u).consumed

omit [DecidableEq ι] in
/-- A reply that moves the level hands out a block. -/
theorem block?_of_lt {r : Reply} {level n : ℕ} (h : Returns S level c r n) (hlt : level < n) :
    ∃ b, Entry.block? (⟨t, c, r⟩ : Entry ι w) = some b := by
  cases h with
  | @granted l htries hs hfits =>
    have hsize : c.size ≠ 0 := by
      rw [htries.requests.1]
      omega
    cases c <;> exact ⟨_, if_neg hsize⟩
  | _ => exact absurd hlt (Nat.lt_irrefl _)

/-- **The level moves only over a block somebody is given.** -/
theorem exists_grant (schedule : List ι) (hσ : σ.Tracked S)
    (hne : (σ.run S schedule).consumed ≠ σ.consumed) : Granted S σ schedule := by
  induction schedule generalizing σ with
  | nil => exact absurd rfl hne
  | cons u schedule ih =>
    obtain ⟨htracked, hstep⟩ := step_returns hσ u
    have hle : σ.consumed ≤ (σ.step S u).consumed := by
      rcases hstep with ⟨hc, -⟩ | ⟨c, r, hlogs⟩
      · exact hc.ge
      · exact hlogs.returns.le
    rcases hle.lt_or_eq with hlt | heq
    · rcases hstep with ⟨hc, -⟩ | ⟨c, r, hlogs⟩
      · exact absurd hc hlt.ne'
      · obtain ⟨b, hb⟩ := block?_of_lt (t := u) hlogs.returns hlt
        exact ⟨[], u, schedule, c, r, b, rfl, hlogs.log, hb, hlt⟩
    · rw [run_cons, heq] at hne
      obtain ⟨before, v, after, c, r, b, rfl, hlog, hb, hlt⟩ := ih htracked hne
      exact ⟨u :: before, v, after, c, r, b, rfl, hlog, hb, hlt⟩

/-- **An exchange that fails has been overtaken.**  It was prepared at the level the
thread read, or found, in the step before, and since then another thread has been
given a block. -/
theorem overtaken {t : ι} {level : Level} {between : List ι} (htracked : σ.Tracked S)
    (hlevel : σ.attemptLevel t = some level) (hbetween : t ∉ between) {c : Call w} {l : Layout w}
    {a : Attempt} {n observed : Level}
    (hpc : (((σ.step S t).run S between).threads t).pc = .exchanging c l a)
    (hex : compareExchange ((σ.step S t).run S between).consumed a.expectConsumed a.newConsumed =
      (n, .error observed)) :
    a.expectConsumed = level ∧ level < observed ∧ Granted S (σ.step S t) between := by
  obtain ⟨rfl, c', l', -, -, hatt⟩ := step_attempted htracked hlevel
  have hth : ((σ.step S t).run S between).threads t = (σ.step S t).threads t :=
    run_threads_of_not_mem hbetween
  have htracked' := (step_returns htracked t).1
  have hmono : (σ.step S t).consumed ≤ ((σ.step S t).run S between).consumed :=
    (run_log between htracked').2.1
  have hexpect : a.expectConsumed = σ.consumed := by
    rw [hth] at hpc
    rcases hatt.next with ⟨a', hpc', ha'⟩ | ⟨hidle, -⟩
    · obtain ⟨-, -, rfl⟩ := Pc.exchanging.inj (hpc.symm.trans hpc')
      exact ha'
    · exact absurd (hpc.symm.trans hidle) (by simp)
  have hne : ((σ.step S t).run S between).consumed ≠ a.expectConsumed := by
    intro heq
    rw [heq, compareExchange_self] at hex
    exact absurd hex (by simp)
  rw [compareExchange_of_ne hne] at hex
  obtain rfl := Except.error.inj (Prod.mk.inj hex).2
  rw [hatt.consumed] at hmono
  have hlt := lt_of_le_of_ne hmono fun heq => hne (heq.symm.trans hexpect.symm)
  refine ⟨hexpect, hlt, exists_grant between htracked' ?_⟩
  rw [hatt.consumed, ← hexpect]
  exact hne

/-- **The retry loop ends, and the arena is lock-free.**  In every interleaving of
any threads, for a call of thread `t` that enters the loop of `try_alloc`: the
levels it tries increase strictly and stay inside the arena, so it makes at most
one attempt for each level from the first one on, and it returns if the thread is
given enough steps.  And whenever an exchange fails that was prepared at the level
read, or found, by the step before: the level it reports is higher than the one
tried, and another thread has been given a block in between. -/
theorem retry_loop_ends (S : Storage w) (program : ι → List (Call w)) (consumed : ℕ)
    (hc : consumed ≤ S.len) (before : List ι) (t : ι) :
    let σ := (start program consumed).run S before
    (∀ c l schedule, (σ.threads t).pc = .loading c l →
      (attempts S t σ schedule).Pairwise (· < ·) ∧
      (∀ first rest, attempts S t σ schedule = first :: rest →
        (attempts S t σ schedule).length ≤ 1 + (S.len - first)) ∧
      (2 + (S.len - σ.consumed) ≤ schedule.count t → Returned S t c σ schedule)) ∧
    (∀ level between, σ.attemptLevel t = some level → t ∉ between →
      let ρ := (σ.step S t).run S between
      ∀ c l a n observed, (ρ.threads t).pc = .exchanging c l a →
        compareExchange ρ.consumed a.expectConsumed a.newConsumed = (n, .error observed) →
        a.expectConsumed = level ∧ level < observed ∧ Granted S (σ.step S t) between) := by
  intro σ
  have hσ : (machine S).Reachable σ := reachable_run S program hc before
  have htracked := reachable_tracked hσ
  refine ⟨?_, ?_⟩
  · intro c l schedule hpc
    obtain ⟨hpair, hmem⟩ := attempts_increasing (t := t) schedule hσ
    refine ⟨hpair, ?_, returned_of_loading schedule hσ hpc⟩
    intro first rest hlevels
    rw [hlevels] at hpair hmem ⊢
    have := add_length_le_of_pairwise_lt hpair fun x hx => (hmem x hx).1
    rw [List.length_cons]
    omega
  · intro level between hlevel hbetween ρ c l a n observed hpc hex
    exact overtaken htracked hlevel hbetween hpc hex

/-- Two threads ask for a word each; the first one's exchange fails, since the
second was faster. -/
theorem retry_loop_ends_two_threads :
    let S : Storage 64 := ⟨4096, 16, page_pos, by decide⟩
    let σ := (start (fun _ : Bool => [.tryAlloc Ty.word.toLayout]) 0).run S [true, false]
    attempts S true σ [true, false, false, true, true] = [0, 8] ∧
      (attempts S true σ [true, false, false, true, true]).length ≤ 1 + (16 - 0) ∧
      Granted S (σ.step S true) [false, false] := by
  have h := retry_loop_ends (w := 64) ⟨4096, 16, page_pos, by decide⟩
    (fun _ : Bool => [.tryAlloc Ty.word.toLayout]) 0 (by decide) [true, false] true
  refine ⟨rfl, ?_, ?_⟩
  · exact (h.1 (.tryAlloc Ty.word.toLayout) Ty.word.toLayout [true, false, false, true, true]
      rfl).2.1 0 [8] rfl
  · exact (h.2 0 [false, false] rfl (by decide) (.tryAlloc Ty.word.toLayout) Ty.word.toLayout
      ⟨0, 8, 0⟩ 8 8 rfl rfl).2.2

end Arena
end Bump
end StaticAlloc
