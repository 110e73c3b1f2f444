import StaticAlloc.Bump.Returns

/-!
# Exhaustion is truthful, and permanent

A refusal in the retry loop is decided at the level the thread has just read, or
was just told by a failed exchange, so at that very step it is the level of the
arena (`Returns.refused`).  A refusal of a call that brought its own level may be
decided at a level long passed.

In both cases there was no room at a level the arena has reached, and the level
never falls: by `Fits.anti` there is no room now, nor at any later time, for that
request or for any that is as large and as aligned.  `Barred` says it once for a
later state: as a fact about room, for a call that runs alone, and for every call
that returned in the meantime, wherever it began.
-/

namespace StaticAlloc
namespace Bump

open Toolkit

variable {w : ℕ} {ι : Type*} {S : Storage w} {l : Layout w} {c : Call w} {level current n : ℕ}

/-! ## What a refusal means -/

/-- `try_alloc` refuses at the level of the arena. -/
theorem Returns.refused (h : Returns S current (.tryAlloc l) (.refused level) n) :
    level = current ∧ 0 < l.size ∧ ¬ Fits S l level ∧ n = current := by
  generalize hr : Reply.refused level = r at h
  cases h with
  | @exhausted l' e htries hs hfull =>
    obtain rfl : level = e := Reply.refused.inj hr
    rcases htries with ⟨hb, he⟩ | hb
    · obtain rfl : l = l' := Body.loop.inj hb
      exact ⟨he, hs, hfull, rfl⟩
    · exact absurd hb (by simp [Call.body])
  | granted => exact absurd hr (by simp [Call.succeed])
  | observed hb => exact absurd hb (by simp [Call.body])
  | _ => exact absurd hr (by simp)

/-- A call at a level of its own is refused at that level. -/
theorem Returns.failed_exhausted (hb : c.body = .once l level)
    (h : Returns S current c (.failed .exhausted) n) :
    0 < l.size ∧ ¬ Fits S l level ∧ n = current := by
  generalize hr : Reply.failed .exhausted = r at h
  cases h with
  | @exhausted l' e htries hs hfull =>
    rcases htries with ⟨hb', -⟩ | hb'
    · exact absurd (hb.symm.trans hb') (by simp)
    · obtain ⟨rfl, rfl⟩ := Body.once.inj (hb.symm.trans hb')
      exact ⟨hs, hfull, rfl⟩
  | granted => cases c <;> exact absurd hr (by simp [Call.succeed])
  | observed hb' => exact absurd (hb.symm.trans hb') (by simp)
  | _ => exact absurd hr (by simp)

/-- Whoever obtains bytes had room for them. -/
theorem Returns.room {r : Reply} (h : Returns S current c r n) (hs : 0 < c.size)
    (hr : r.ptr? ≠ none) : ∃ l, c.Requests l ∧ Fits S l current := by
  cases h with
  | @granted l' htries hpos hfits => exact ⟨l', htries.requests, fits_iff_placement.mpr hfits⟩
  | exhausted => exact absurd (ptr?_exhausted c _) hr
  | observed hb =>
    have hserves := c.serves_body
    rw [hb] at hserves
    exact absurd hserves (by unfold Body.Serves; omega)
  | _ => exact absurd rfl hr

/-! ## From then on -/

namespace Arena

variable [DecidableEq ι]

theorem run_cons (S : Storage w) (σ : Arena ι w) (t : ι) (schedule : List ι) :
    σ.run S (t :: schedule) = (σ.step S t).run S schedule := rfl

theorem run_append (S : Storage w) (σ : Arena ι w) (before after : List ι) :
    σ.run S (before ++ after) = (σ.run S before).run S after := List.foldl_append

theorem reachable_run (S : Storage w) (program : ι → List (Call w)) {consumed : ℕ}
    (hc : consumed ≤ S.len) (schedule : List ι) :
    (machine S).Reachable ((start program consumed).run S schedule) := by
  obtain ⟨h, hrun⟩ := run_spec S schedule (start program consumed)
  exact hrun.reachable (Machine.Reachable.of_init ⟨program, consumed, hc, rfl⟩)

/-- **What happens along a schedule.**  The level rises, calls are added to the
log, and each one that obtains bytes had room for them at a level not below the
first. -/
theorem run_log (schedule : List ι) {σ : Arena ι w} (h : σ.Tracked S) :
    (σ.run S schedule).Tracked S ∧ σ.consumed ≤ (σ.run S schedule).consumed ∧
      ∃ new, (σ.run S schedule).log = new ++ σ.log ∧
        ∀ x ∈ new, 0 < x.call.size → x.reply.ptr? ≠ none →
          ∃ l current, σ.consumed ≤ current ∧ x.call.Requests l ∧ Fits S l current := by
  induction schedule generalizing σ with
  | nil => exact ⟨h, le_rfl, [], rfl, fun x hx => absurd hx List.not_mem_nil⟩
  | cons t schedule ih =>
    obtain ⟨htracked, hstep⟩ := step_returns h t
    obtain ⟨hrun, hle, new, hlog, hnew⟩ := ih htracked
    rw [run_cons]
    rcases hstep with ⟨hc, hl⟩ | ⟨c, r, hlogs⟩
    · rw [hc] at hle hnew
      exact ⟨hrun, hle, new, hlog.trans (by rw [hl]), hnew⟩
    · have hle' := hlogs.returns.le
      refine ⟨hrun, hle'.trans hle, new ++ [⟨t, c, r⟩], ?_, ?_⟩
      · rw [hlog, hlogs.log, List.append_assoc]
        rfl
      · intro x hx hs hp
        rcases List.mem_append.mp hx with hx | hx
        · obtain ⟨l, current, hcur, hreq, hfits⟩ := hnew x hx hs hp
          exact ⟨l, current, hle'.trans hcur, hreq, hfits⟩
        · rw [List.mem_singleton.mp hx] at hs hp ⊢
          obtain ⟨l, hreq, hfits⟩ := hlogs.returns.room hs hp
          exact ⟨l, σ.consumed, le_rfl, hreq, hfits⟩

/-- Levels that were the arena's are not above its present one. -/
theorem run_take_le (program : ι → List (Call w)) (consumed : ℕ) (schedule : List ι) (k : ℕ) :
    ((start program consumed).run S (schedule.take k)).consumed ≤
      ((start program consumed).run S schedule).consumed := by
  have hstart : (start program consumed).Tracked S := fun _ => trivial
  have htracked := (run_log (schedule.take k) hstart).1
  have hmono := (run_log (schedule.drop k) htracked).2.1
  rwa [← run_append, List.take_append_drop] at hmono

/-- **Every finished call was answered in one of the steps**, as the arena stood then. -/
theorem run_answered (schedule : List ι) {σ : Arena ι w} (h : σ.Tracked S) {x : Entry ι w}
    (hx : x ∈ (σ.run S schedule).log) : x ∈ σ.log ∨ ∃ k < schedule.length,
      Returns S (σ.run S (schedule.take k)).consumed x.call x.reply
        (σ.run S (schedule.take (k + 1))).consumed := by
  induction schedule generalizing σ with
  | nil => exact Or.inl hx
  | cons t schedule ih =>
    obtain ⟨htracked, hstep⟩ := step_returns h t
    rw [run_cons] at hx
    rcases ih htracked hx with hx | ⟨k, hk, hreturns⟩
    · rcases hstep with ⟨-, hl⟩ | ⟨c, r, hlogs⟩
      · exact Or.inl (hl ▸ hx)
      · rw [hlogs.log] at hx
        rcases List.mem_cons.mp hx with rfl | hx
        · exact Or.inr ⟨0, Nat.succ_pos _, hlogs.returns⟩
        · exact Or.inl hx
    · exact Or.inr ⟨k + 1, Nat.succ_lt_succ hk, hreturns⟩

/-- Since `σ` no request as large and as aligned as `l` can be served, and none
was up to `τ`. -/
structure Barred (S : Storage w) (σ τ : Arena ι w) (l : Layout w) : Prop where
  room : ∀ l', l.size ≤ l'.size → l.align ≤ l'.align → ¬ Fits S l' τ.consumed
  alone : ∀ l', l.size ≤ l'.size → l.align ≤ l'.align →
    tryAlloc S τ.consumed l' = .ok (τ.consumed, .error τ.consumed)
  failed : ∃ new, τ.log = new ++ σ.log ∧
    ∀ x ∈ new, l.size ≤ x.call.size → l.align ≤ x.call.align → x.reply.ptr? = none

/-- No room at a level the arena has passed is no room ever after. -/
theorem barred_of_not_fits {σ : Arena ι w} (hσ : (machine S).Reachable σ) (hs : 0 < l.size)
    (hle : level ≤ σ.consumed) (hfull : ¬ Fits S l level) (after : List ι) :
    Barred S σ (σ.run S after) l := by
  obtain ⟨-, hmono, new, hlog, hnew⟩ := run_log after (reachable_tracked hσ)
  have hroom : ∀ l', l.size ≤ l'.size → l.align ≤ l'.align →
      ¬ Fits S l' (σ.run S after).consumed :=
    fun l' hsize halign hfits => hfull (hfits.anti (hle.trans hmono) hsize halign)
  refine ⟨hroom, ?_, new, hlog, ?_⟩
  · intro l' hsize halign
    obtain ⟨h, hrun⟩ := run_spec S after σ
    have hlevel := (reachable_invariant (hrun.reachable hσ)).level_le
    have hnofit := hroom l' hsize halign
    rw [fits_iff_placement] at hnofit
    rw [tryAlloc_eq (by omega) hlevel, if_neg hnofit]
  · intro x hx hsize halign
    by_contra hp
    obtain ⟨l', current, hcur, ⟨hreq, hreq'⟩, hfits⟩ := hnew x hx (by omega) hp
    exact hfull (hfits.anti (hle.trans hcur) (by omega) (by omega))

/-- **Exhaustion is truthful and permanent.**  In every interleaving of any
threads: when `try_alloc` returns `Err(level)` to thread `t`, then `level` is the
level of the arena at that step of the call, the request does not fit there, and
in every state from then on neither it nor any request as large and as aligned is
served.  When a call that brings its own level returns `Exhausted`, and that level
was the arena's at any earlier time, the same holds from then on. -/
theorem exhaustion_permanent (S : Storage w) (program : ι → List (Call w)) (consumed : ℕ)
    (hc : consumed ≤ S.len) (before after : List ι) (t : ι) :
    let σ := (start program consumed).run S before
    let σ' := σ.step S t
    (∀ l level, σ'.log = ⟨t, .tryAlloc l, .refused level⟩ :: σ.log →
      (σ.threads t).pc.call? = some (.tryAlloc l) ∧ level = σ.consumed ∧ ¬ Fits S l level ∧
        Barred S σ' (σ'.run S after) l) ∧
    (∀ c l level, c.body = .once l level → σ'.log = ⟨t, c, .failed .exhausted⟩ :: σ.log →
      (∃ k, ((start program consumed).run S (before.take k)).consumed = level) →
        ¬ Fits S l σ'.consumed ∧ Barred S σ' (σ'.run S after) l) := by
  intro σ σ'
  have hσ : (machine S).Reachable σ := reachable_run S program hc before
  have hσ' : (machine S).Reachable σ' := hσ.tail rfl
  have htracked := reachable_tracked hσ
  refine ⟨?_, ?_⟩
  · intro l level hlog
    have h : Logs S σ t σ' _ _ := logs_of_log htracked hlog
    obtain ⟨hlevel, hs, hfull, hsame⟩ := h.returns.refused
    refine ⟨h.inside.resolve_right fun hb => hb l rfl, hlevel, hfull, ?_⟩
    exact barred_of_not_fits hσ' hs (by omega) hfull after
  · rintro c l level hb hlog ⟨k, rfl⟩
    have h : Logs S σ t σ' _ _ := logs_of_log htracked hlog
    obtain ⟨hs, hfull, hsame⟩ := h.returns.failed_exhausted hb
    have hle : ((start program consumed).run S (before.take k)).consumed ≤ σ'.consumed :=
      (run_take_le program consumed before k).trans hsame.ge
    exact ⟨fun hfits => hfull (hfits.anti hle le_rfl le_rfl),
      barred_of_not_fits hσ' hs hle hfull after⟩

/-- Twelve bytes. -/
def twelve : Storage 64 := ⟨4096, 12, page_pos, by decide⟩

/-- One thread asks for eight bytes twice; then another one asks for two bytes, and for eight at a
level long passed. -/
def tenants : Bool → List (Call 64)
  | true => [.tryAlloc Ty.word.toLayout, .tryAlloc Ty.word.toLayout]
  | false => [.tryAlloc Ty.halfWord.toLayout, .getLayoutAt Ty.word.toLayout 8]

/-- The arena when the first `n` steps are taken. -/
def tenants.after (n : ℕ) : Arena Bool 64 :=
  (start tenants 0).run twelve
    ([true, true, true, true, true, false, false, false, false].take n)

/-- The second request for eight bytes is refused, and so is the third one, after two bytes were
handed out. -/
theorem exhaustion_permanent_tenants :
    ((tenants.after 5).log.head? = some ⟨true, .tryAlloc Ty.word.toLayout, .refused 8⟩ ∧
      Barred twelve (tenants.after 5) (tenants.after 9) Ty.word.toLayout) ∧
    (tenants.after 8).log.head? =
      some ⟨false, .tryAlloc Ty.halfWord.toLayout, .granted ⟨4104, 10⟩⟩ ∧
    (tenants.after 9).log.head? =
        some ⟨false, .getLayoutAt Ty.word.toLayout 8, .failed .exhausted⟩ ∧
      ¬ Fits twelve Ty.word.toLayout (tenants.after 9).consumed := by
  have hloop := (exhaustion_permanent twelve tenants 0 (by decide) [true, true, true, true]
    [false, false, false, false] true).1 Ty.word.toLayout 8 rfl
  have honce := (exhaustion_permanent twelve tenants 0 (by decide)
    [true, true, true, true, true, false, false, false] [] false).2
    (.getLayoutAt Ty.word.toLayout 8) Ty.word.toLayout 8 rfl rfl ⟨5, rfl⟩
  exact ⟨⟨rfl, hloop.2.2.2⟩, rfl, rfl, honce.1⟩

end Arena
end Bump
end StaticAlloc
