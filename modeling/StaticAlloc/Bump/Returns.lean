import StaticAlloc.Bump.Safety
import StaticAlloc.Bump.Placement

/-!
# How a call returns

For safety it is enough that a granted block lies at or behind the level.  What
the levels themselves mean takes more: which level an attempt was made at, and
how that level compares with the one the arena has by the time the attempt is
decided.

`Returns` says it for one call: standing at some level, the arena answers a call
in one of six ways, and only a granted block moves the level.  `Pc.Faithful` is
what a waiting thread remembers.  A thread in the retry loop has tried a level
the arena has already reached, since it read that level off the counter, so it
never finds the counter below it; a call with a level of its own tries that one.

`step_returns` is the inversion of a step: nothing is logged and the level stays,
or one call is logged, and it returned as `Returns` says.
-/

namespace StaticAlloc
namespace Bump

open Toolkit

variable {w : ℕ} {ι : Type*} {S : Storage w} {l : Layout w} {c : Call w} {e level n : ℕ}

/-- `leak_at` moves its value into the memory `get_at` obtains, and does nothing
else with the counter. -/
abbrev Call.leakAt (V : Ty w) (level : Level) : Call w := .getAt V level

/-! ## Attempts -/

/-- While the arena stands at `level`, the call makes an attempt at `e`: the retry
loop at the level it has just read, any other call at its own. -/
def Call.Tries (c : Call w) (l : Layout w) (e level : ℕ) : Prop :=
  c.body = .loop l ∧ e = level ∨ c.body = .once l e

theorem Call.retries_of_loop (h : c.body = .loop l) : c.retries = true := by
  cases c with
  | allocAt | getLayoutAt => exact absurd h (by simp [body])
  | getAt V level =>
    rw [body] at h
    split at h <;> exact absurd h (by simp)
  | _ => rfl

theorem Call.retries_of_once (h : c.body = .once l e) : c.retries = false := by
  cases c with
  | allocAt | getLayoutAt | getAt => rfl
  | tryAlloc | alloc | getLayout => exact absurd h (by simp [body])
  | get V =>
    rw [body] at h
    split at h <;> exact absurd h (by simp)
  | getSlice V len =>
    rw [body] at h
    split at h
    · exact absurd h (by simp)
    · split at h
      · exact absurd h (by simp)
      · split at h <;> exact absurd h (by simp)

/-- Both kinds of attempt ask for the layout of the call. -/
theorem Call.Tries.requests (h : c.Tries l e level) : c.Requests l := by
  have hserves := c.serves_body
  rcases h with ⟨h, -⟩ | h
  · rw [h] at hserves
    exact hserves
  · rw [h] at hserves
    exact hserves

/-- An attempt ends in exhaustion exactly if there is no room. -/
theorem prepare_none (h : prepare S l e = .ok none) :
    0 < l.size ∧ e ≤ S.len ∧ ¬ Fits S l e := by
  obtain ⟨hs, he, hr⟩ := prepare_ok h
  refine ⟨hs, he, ?_⟩
  rw [fits_iff_placement]
  intro hfit
  rw [if_pos hfit] at hr
  exact absurd hr (by simp)

/-- An attempt that goes on has room at its placement. -/
theorem prepare_some {a : Attempt} (h : prepare S l e = .ok (some a)) :
    0 < l.size ∧ placement S l e + l.size ≤ S.len ∧
      a = ⟨e, placement S l e + l.size, placement S l e⟩ := by
  obtain ⟨hs, -, hr⟩ := prepare_ok h
  split at hr
  · rename_i hfit
    exact ⟨hs, hfit, Option.some.inj hr⟩
  · exact absurd hr (by simp)

/-! ## Replies -/

/-- The ways in which a call may return while the arena stands at `level`: its
reply, and the level afterwards. -/
inductive Returns (S : Storage w) (level : ℕ) (c : Call w) : Reply → ℕ → Prop where
  | granted {l : Layout w} (tries : c.Tries l level level) (size_pos : 0 < l.size)
      (fits : placement S l level + l.size ≤ S.len) :
      Returns S level c
        (c.succeed ⟨S.base + placement S l level, placement S l level + l.size⟩)
        (placement S l level + l.size)
  | exhausted {l : Layout w} {e : ℕ} (tries : c.Tries l e level) (size_pos : 0 < l.size)
      (full : ¬ Fits S l e) : Returns S level c (c.exhausted e) level
  | mismatch {l : Layout w} {e : ℕ} (once : c.body = .once l e) (moved : e ≠ level) :
      Returns S level c (.failed (.mismatch level)) level
  | observed (observe : c.body = .observe) : Returns S level c (c.observed level) level
  | gaveUp (giveUp : c.body = .giveUp) : Returns S level c .nothing level
  | stopped {l : Layout w} {e : ℕ} {s : Stop} (tries : c.Tries l e level) :
      Returns S level c (.stopped s) level

/-- The level never falls. -/
theorem Returns.le {r : Reply} (h : Returns S level c r n) : level ≤ n := by
  cases h with
  | granted => exact le_placement.trans (Nat.le_add_right _ _)
  | _ => exact le_rfl

/-! ## Waiting threads -/

/-- The call a thread is in the middle of. -/
def Pc.call? : Pc w → Option (Call w)
  | .idle => none
  | .loading c _ => some c
  | .observing c => some c
  | .exchanging c _ _ => some c

/-- What a thread about to take an atomic step remembers, while the arena stands
at `level`. -/
def Pc.Faithful (S : Storage w) (level : ℕ) : Pc w → Prop
  | .idle => True
  | .loading c l => c.body = .loop l
  | .observing c => c.body = .observe
  | .exchanging c l a => prepare S l a.expectConsumed = .ok (some a) ∧
      (c.body = .loop l ∧ a.expectConsumed ≤ level ∨ c.body = .once l a.expectConsumed)

theorem Pc.Faithful.mono {pc : Pc w} {m : ℕ} (h : pc.Faithful S n) (hnm : n ≤ m) :
    pc.Faithful S m := by
  cases pc with
  | exchanging c l a =>
    obtain ⟨hp, ⟨hb, hle⟩ | hb⟩ := h
    · exact ⟨hp, Or.inl ⟨hb, hle.trans hnm⟩⟩
    · exact ⟨hp, Or.inr hb⟩
  | _ => exact h

/-- What a thread does without moving the counter: it waits faithfully, or it
returns in one of the ways that leave the level alone. -/
def Next.Tracks (S : Storage w) (level : ℕ) (c : Call w) : Next w → Prop
  | .goto pc => pc.Faithful S level ∧ pc.call? = some c
  | .done r => Returns S level c r level

theorem attempt_tracks (h : c.Tries l e level) : (attempt S c l e).Tracks S level c := by
  unfold attempt
  cases hp : prepare S l e with
  | error s => exact Returns.stopped h
  | ok o =>
    cases o with
    | none =>
      obtain ⟨hs, -, hfull⟩ := prepare_none hp
      exact Returns.exhausted h hs hfull
    | some a =>
      have ha : a.expectConsumed = e := (prepare_sound hp).2
      refine ⟨⟨by rw [ha]; exact hp, ?_⟩, rfl⟩
      rcases h with ⟨hb, he⟩ | hb
      · exact Or.inl ⟨hb, by omega⟩
      · exact Or.inr (by rw [ha]; exact hb)

theorem enter_tracks (level : ℕ) (c : Call w) : (enter S c).Tracks S level c := by
  unfold enter
  cases hb : c.body with
  | loop l => exact ⟨hb, rfl⟩
  | once l e => exact attempt_tracks (Or.inr hb)
  | observe => exact ⟨hb, rfl⟩
  | giveUp => exact Returns.gaveUp hb

/-- After a failed exchange the loop tries the level it found, and any other call
reports it. -/
theorem mismatched_tracks {a : Attempt} (h : (Pc.exchanging c l a).Faithful S level)
    (hne : level ≠ a.expectConsumed) : (mismatched S c l level).Tracks S level c := by
  obtain ⟨-, ⟨hb, -⟩ | hb⟩ := h
  · rw [mismatched, if_pos (Call.retries_of_loop hb)]
    exact attempt_tracks (Or.inl ⟨hb, rfl⟩)
  · rw [mismatched, if_neg (by rw [Call.retries_of_once hb]; decide)]
    exact Returns.mismatch hb (Ne.symm hne)

/-! ## The inversion of a step -/

namespace Arena

/-- Every thread waits faithfully. -/
def Tracked (S : Storage w) (σ : Arena ι w) : Prop :=
  ∀ t, (σ.threads t).pc.Faithful S σ.consumed

variable [DecidableEq ι]

theorem settle_log_done (σ : Arena ι w) (t : ι) (c : Call w) (todo : List (Call w)) (r : Reply) :
    (σ.settle t c todo (.done r)).log = ⟨t, c, r⟩ :: σ.log := by
  cases r <;> rfl

theorem settle_threads_of_ne (σ : Arena ι w) {t u : ι} (h : u ≠ t) (c : Call w)
    (todo : List (Call w)) (n : Next w) : (σ.settle t c todo n).threads u = σ.threads u := by
  unfold settle
  split <;> exact Function.update_of_ne h _ _

theorem settle_pc_goto (σ : Arena ι w) (t : ι) (c : Call w) (todo : List (Call w)) (pc : Pc w) :
    ((σ.settle t c todo (.goto pc)).threads t).pc = pc := by
  simp [settle]

theorem settle_pc_done (σ : Arena ι w) (t : ι) (c : Call w) (todo : List (Call w)) (r : Reply) :
    ((σ.settle t c todo (.done r)).threads t).pc = .idle := by
  cases r <;> simp [settle]

theorem settle_tracked {σ : Arena ι w} (h : σ.Tracked S) (t : ι) (todo : List (Call w))
    {x : Next w} (hx : x.Tracks S σ.consumed c ∨ ∃ r, x = .done r) :
    (σ.settle t c todo x).Tracked S := by
  intro u
  rw [settle_consumed]
  by_cases hu : u = t
  · rw [hu]
    cases x with
    | goto pc =>
      rw [settle_pc_goto]
      rcases hx with hx | ⟨r, hr⟩
      · exact hx.1
      · exact absurd hr (by simp)
    | done r =>
      rw [settle_pc_done]
      trivial
  · rw [settle_threads_of_ne σ hu]
    exact h u

/-- What a step of thread `t` logs: nothing, with the level where it was, or the
one call the thread is in, or makes without waiting. -/
structure Logs (S : Storage w) (σ : Arena ι w) (t : ι) (σ' : Arena ι w) (c : Call w)
    (r : Reply) : Prop where
  log : σ'.log = ⟨t, c, r⟩ :: σ.log
  returns : Returns S σ.consumed c r σ'.consumed
  inside : (σ.threads t).pc.call? = some c ∨ ∀ l, c.body ≠ .loop l

theorem settle_logs {σ : Arena ι w} (t : ι) (todo : List (Call w)) {x : Next w}
    (hx : x.Tracks S σ.consumed c)
    (hin : (σ.threads t).pc.call? = some c ∨ (∃ pc, x = .goto pc) ∨ ∀ l, c.body ≠ .loop l) :
    ((σ.settle t c todo x).consumed = σ.consumed ∧ (σ.settle t c todo x).log = σ.log) ∨
      ∃ r, Logs S σ t (σ.settle t c todo x) c r := by
  cases x with
  | goto pc => exact Or.inl ⟨rfl, rfl⟩
  | done r =>
    refine Or.inr ⟨r, settle_log_done σ t c todo r, ?_, ?_⟩
    · rw [settle_consumed]
      exact hx
    · rcases hin with hin | ⟨pc, hpc⟩ | hin
      · exact Or.inl hin
      · exact absurd hpc (by simp)
      · exact Or.inr hin

/-- The exchange succeeds: the block computed for this level is handed out. -/
theorem exchange_logs {σ : Arena ι w} {t : ι} {a : Attempt} {todo : List (Call w)}
    (hth : σ.threads t = ⟨.exchanging c l a, todo⟩)
    (hf : (Pc.exchanging c l a).Faithful S σ.consumed) (heq : σ.consumed = a.expectConsumed) :
    ∃ r, Logs S σ t (exchange S σ t c todo l a) c r ∧
      exchange S σ t c todo l a =
        ({ σ with consumed := a.newConsumed } : Arena ι w).settle t c todo (.done r) := by
  obtain ⟨hp, hb⟩ := hf
  obtain ⟨hs, hfit, ha⟩ := prepare_some hp
  have hex : exchange S σ t c todo l a =
      ({ σ with consumed := a.newConsumed } : Arena ι w).settle t c todo
        (.done (c.succeed ⟨S.base + a.atAligned, a.newConsumed⟩)) := by
    unfold exchange finish
    rw [heq, compareExchange_self, granted_eq]
  have htries : c.Tries l σ.consumed σ.consumed := by
    rcases hb with ⟨hb, -⟩ | hb
    · exact Or.inl ⟨hb, rfl⟩
    · exact Or.inr (by rw [heq]; exact hb)
  refine ⟨_, ⟨?_, ?_, Or.inl (by rw [hth]; rfl)⟩, hex⟩
  · rw [hex, settle_log_done]
  · rw [hex, settle_consumed]
    rw [← heq] at ha hfit
    rw [ha]
    exact Returns.granted htries hs hfit

/-- **The inversion of a step.** -/
theorem step_returns {σ : Arena ι w} (h : σ.Tracked S) (t : ι) :
    (σ.step S t).Tracked S ∧
      (((σ.step S t).consumed = σ.consumed ∧ (σ.step S t).log = σ.log) ∨
        ∃ c r, Logs S σ t (σ.step S t) c r) := by
  have ht := h t
  unfold step
  generalize hth : σ.threads t = th at ht
  obtain ⟨pc, todo⟩ := th
  cases pc with
  | idle =>
    cases todo with
    | nil => exact ⟨h, Or.inl ⟨rfl, rfl⟩⟩
    | cons c todo =>
      have hx := enter_tracks (S := S) σ.consumed c
      refine ⟨settle_tracked h t todo (Or.inl hx), ?_⟩
      refine (settle_logs t todo hx (Or.inr ?_)).imp_right fun ⟨r, hr⟩ => ⟨c, r, hr⟩
      cases hb : c.body with
      | loop l => exact Or.inl ⟨.loading c l, by rw [enter, hb]⟩
      | _ => exact Or.inr (by simp)
  | loading c l =>
    have htries : c.Tries l σ.consumed σ.consumed := Or.inl ⟨ht, rfl⟩
    have hx := attempt_tracks (S := S) htries
    refine ⟨settle_tracked h t todo (Or.inl hx), ?_⟩
    exact (settle_logs t todo hx (Or.inl (by rw [hth]; rfl))).imp_right
      fun ⟨r, hr⟩ => ⟨c, r, hr⟩
  | observing c =>
    have hx : (Next.done (c.observed σ.consumed)).Tracks S σ.consumed c := Returns.observed ht
    refine ⟨settle_tracked h t todo (Or.inl hx), ?_⟩
    exact (settle_logs t todo hx (Or.inl (by rw [hth]; rfl))).imp_right
      fun ⟨r, hr⟩ => ⟨c, r, hr⟩
  | exchanging c l a =>
    show (exchange S σ t c todo l a).Tracked S ∧
      (((exchange S σ t c todo l a).consumed = σ.consumed ∧
        (exchange S σ t c todo l a).log = σ.log) ∨
        ∃ c' r, Logs S σ t (exchange S σ t c todo l a) c' r)
    by_cases heq : σ.consumed = a.expectConsumed
    · obtain ⟨r, hlogs, hex⟩ := exchange_logs hth ht heq
      refine ⟨?_, Or.inr ⟨c, r, hlogs⟩⟩
      have hle : σ.consumed ≤ a.newConsumed := by
        have := hlogs.returns.le
        rwa [hex, settle_consumed] at this
      rw [hex]
      exact settle_tracked (σ := { σ with consumed := a.newConsumed })
        (fun u => (h u).mono hle) t todo (Or.inr ⟨r, rfl⟩)
    · rw [exchange_of_ne heq]
      have hx := mismatched_tracks ht heq
      refine ⟨settle_tracked h t todo (Or.inl hx), ?_⟩
      exact (settle_logs t todo hx (Or.inl (by rw [hth]; rfl))).imp_right
        fun ⟨r, hr⟩ => ⟨c, r, hr⟩

/-- A step that added a call to the log is a step in which that call returned. -/
theorem logs_of_log {σ : Arena ι w} (h : σ.Tracked S) {t : ι} {c : Call w} {r : Reply}
    (hlog : (σ.step S t).log = ⟨t, c, r⟩ :: σ.log) : Logs S σ t (σ.step S t) c r := by
  rcases (step_returns h t).2 with ⟨-, hl⟩ | ⟨c', r', hlogs⟩
  · exact absurd (hl.symm.trans hlog) (by simp)
  · obtain ⟨-, rfl, rfl⟩ := Entry.mk.inj (List.cons.inj (hlog.symm.trans hlogs.log)).1
    exact hlogs

/-- **Faithfulness holds in every reachable state.** -/
theorem reachable_tracked {σ : Arena ι w} (h : (machine S).Reachable σ) : σ.Tracked S := by
  refine Machine.Reachable.invariant ?_ ?_ h
  · rintro σ ⟨program, consumed, -, rfl⟩ t
    trivial
  · rintro σ t σ' - hinv rfl
    exact (step_returns hinv t).1

end Arena
end Bump
end StaticAlloc
