import StaticAlloc.Leaked.Ownership

/-!
# A box is a value of its own

To its user a `LeakBox` is a value that happens to be elsewhere.  `owners` is that view: a
variable holds a tree of values, and there is no arena, no memory and no pointer.

`Represents` relates the two, and keeps with every variable the bytes of what it holds.
Those of two variables lie apart, and all lie below the level of the arena, which is why a
new box lies apart from all.  Almost every act changes one variable (`Represents.assign`).
It gives up some of its bytes, or gets new ones from the arena or from a variable that was
moved into it; the others keep theirs, and with them what they hold.

`matched` says that every act a program may do ends, and that the owners can do the same.
-/

namespace StaticAlloc
namespace Leaked

open Toolkit

variable {w : ℕ} {τ δ ι : Type} [DecidableEq τ] [DecidableEq ι]

/-! ## Owners -/

/-- What a variable holds, without an address. -/
inductive Owned (τ δ : Type) where
  | value (t : Rose (τ × δ))
  | place (k : Kind) (t : Rose (τ × δ))
  /-- `LeakBox<MaybeUninit<T>>` -/
  | room (type : τ)

/-- The variables of a program, and the destructors that have run. -/
structure Estate (ι τ δ : Type) where
  vars : ι → Option (Owned τ δ)
  log : Log τ δ

namespace Estate

/-- A variable is assigned to. -/
def assign (π : Estate ι τ δ) (x : ι) (o : Option (Owned τ δ)) : Estate ι τ δ :=
  { π with vars := Function.update π.vars x o }

/-- A tree is dropped. -/
def drops (π : Estate ι τ δ) (t : Rose (τ × δ)) : Estate ι τ δ :=
  { π with log := π.log ++ t.preorder }

end Estate

/-- The tree, if there is one. -/
def Owned.tree : Owned τ δ → Option (Rose (τ × δ))
  | value t | place _ t => some t
  | room _ => none

/-- What an act does where boxes are values, and what may be replied.  Whether there is room
for one more is not determined. -/
inductive Does (π : Estate ι τ δ) : Act ι τ δ → Reply δ → Estate ι τ δ → Prop where
  | make {x : ι} {type : τ} {data : δ} : π.vars x = none →
      Does π (.make x type data) .done (π.assign x (some (.value (.node (type, data) []))))
  | discard {x : ι} {t : Rose (τ × δ)} : π.vars x = some (.value t) →
      Does π (.discard x) .done ((π.assign x none).drops t)
  | attach {x y : ι} {a : τ × δ} {ts : List (Rose (τ × δ))} {t : Rose (τ × δ)} :
      π.vars x = some (.value (.node a ts)) → π.vars y = some (.place .boxed t) →
      Does π (.attach x y) .done
        ((π.assign y none).assign x (some (.value (.node a (t :: ts)))))
  | detach {x y : ι} {a : τ × δ} {ts : List (Rose (τ × δ))} {t : Rose (τ × δ)} :
      π.vars x = some (.value (.node a (t :: ts))) → π.vars y = none →
      Does π (.detach x y) .done
        ((π.assign x (some (.value (.node a ts)))).assign y (some (.place .boxed t)))
  | leakBox {x : ι} {t : Rose (τ × δ)} : π.vars x = some (.value t) →
      Does π (.leakBox x) .done (π.assign x (some (.place .boxed t)))
  | leakBox_refused {x : ι} {t : Rose (τ × δ)} : π.vars x = some (.value t) →
      Does π (.leakBox x) .refused ((π.assign x none).drops t)
  | leakBoxAt {x : ι} {level : Bump.Level} {t : Rose (τ × δ)} : π.vars x = some (.value t) →
      Does π (.leakBoxAt x level) .done (π.assign x (some (.place .boxed t)))
  | leakBoxAt_refused {x : ι} {level : Bump.Level} {t : Rose (τ × δ)} :
      π.vars x = some (.value t) →
      Does π (.leakBoxAt x level) .refused ((π.assign x none).drops t)
  | leak {x : ι} {t : Rose (τ × δ)} : π.vars x = some (.value t) →
      Does π (.leak x) .done (π.assign x (some (.place .reference t)))
  | leak_refused {x : ι} {t : Rose (τ × δ)} : π.vars x = some (.value t) →
      Does π (.leak x) .refused π
  | leakAt {x : ι} {level : Bump.Level} {t : Rose (τ × δ)} : π.vars x = some (.value t) →
      Does π (.leakAt x level) .done (π.assign x (some (.place .reference t)))
  | leakAt_refused {x : ι} {level : Bump.Level} {t : Rose (τ × δ)} :
      π.vars x = some (.value t) → Does π (.leakAt x level) .refused π
  | leakUninit {x : ι} {type : τ} : π.vars x = none →
      Does π (.leakUninit x type) .done (π.assign x (some (.room type)))
  | leakUninit_refused {x : ι} {type : τ} : π.vars x = none →
      Does π (.leakUninit x type) .refused π
  | write {x y : ι} {t : Rose (τ × δ)} : π.vars x = some (.room t.root.1) →
      π.vars y = some (.value t) →
      Does π (.write x y) .done ((π.assign y none).assign x (some (.place .boxed t)))
  | read {x : ι} {o : Owned τ δ} {t : Rose (τ × δ)} : π.vars x = some o → o.tree = some t →
      Does π (.read x) (.saw t.root.2) π
  | replace {x y : ι} {k : Kind} {t t' : Rose (τ × δ)} : π.vars x = some (.place k t) →
      π.vars y = some (.value t') → t'.root.1 = t.root.1 →
      Does π (.replace x y) .done
        ((π.assign x (some (.place k t'))).assign y (some (.value t)))
  | take {x : ι} {t : Rose (τ × δ)} : π.vars x = some (.place .boxed t) →
      Does π (.take x) .done (π.assign x (some (.value t)))
  | drop {x : ι} {t : Rose (τ × δ)} : π.vars x = some (.place .boxed t) →
      Does π (.drop x) .done ((π.assign x none).drops t)
  | intoRaw {x : ι} {t : Rose (τ × δ)} : π.vars x = some (.place .boxed t) →
      Does π (.intoRaw x) .done (π.assign x (some (.place .raw t)))
  | fromRaw {x : ι} {t : Rose (τ × δ)} : π.vars x = some (.place .raw t) →
      Does π (.fromRaw x) .done (π.assign x (some (.place .boxed t)))
  | intoRef {x : ι} {t : Rose (τ × δ)} : π.vars x = some (.place .boxed t) →
      Does π (.intoRef x) .done (π.assign x (some (.place .reference t)))
  | fromMutUnchecked {x : ι} {t : Rose (τ × δ)} : π.vars x = some (.place .reference t) →
      Does π (.fromMutUnchecked x) .done (π.assign x (some (.place .boxed t)))
  | forget {x : ι} : π.vars x ≠ none → Does π (.forget x) .done (π.assign x none)
  | reset : Does π .reset .done π

/-- Programs whose boxes are values. -/
def owners (ι τ δ : Type) [DecidableEq ι] : Machine (Estate ι τ δ) (Act ι τ δ × Reply δ) where
  init π := (∀ x, π.vars x = none) ∧ π.log = []
  step π l π' := Does π l.1 l.2 π'

/-! ## What a variable means -/

variable {S : Storage w} {T : Types w τ δ}

/-- What a variable holds in the memory is what it holds without addresses. -/
inductive Means (T : Types w τ δ) (m : Objects (Value τ δ)) :
    Option (Held τ δ) → Option (Owned τ δ) → List Span → Prop where
  | none : Means T m none none []
  | value {v : Value τ δ} {F : List Span} {t : Rose (τ × δ)} :
      Holds T m v F t → Means T m (some (.value v)) (some (.value t)) F
  | place {k : Kind} {b : LeakBox τ} {F : List Span} {t : Rose (τ × δ)} :
      k ≠ .uninit → HoldsAt T m b F t → Means T m (some (.place k b)) (some (.place k t)) F
  | room {b : LeakBox τ} :
      T.Valid b → Means T m (some (.place .uninit b)) (some (.room b.type)) (T.spans b)

theorem Means.keeps {m m' : Objects (Value τ δ)} {held : Option (Held τ δ)}
    {owned : Option (Owned τ δ)} {F : List Span} (h : Means T m held owned F)
    (hk : Objects.Keeps T.sizeOf m m' F) : Means T m' held owned F := by
  cases h with
  | none => exact .none
  | value h => exact .value (h.keeps hk)
  | place hne h => exact .place hne (h.keeps hk)
  | room h => exact .room h

/-- The state of the program is that of the owners, and `F` says which bytes each variable
has for its own. -/
structure Represents (S : Storage w) (T : Types w τ δ) (F : ι → List Span)
    (σ : State ι τ δ) (π : Estate ι τ δ) : Prop where
  means : ∀ x, Means T σ.heap.memory (σ.vars x) (π.vars x) (F x)
  log : π.log = σ.log
  level : σ.heap.consumed ≤ S.len
  below : ∀ x, ∀ s ∈ F x, s.stop ≤ S.base + σ.heap.consumed
  separate : ∀ x, Types.Separate (F x)
  apart : ∀ x y, x ≠ y → ∀ s ∈ F x, ∀ t ∈ F y, s.Apart t

namespace Represents

variable {F : ι → List Span} {σ : State ι τ δ} {π : Estate ι τ δ} {x y : ι}
  {held : Option (Held τ δ)} {owned : Option (Owned τ δ)} {G : List Span}
  {m : Objects (Value τ δ)} {c : ℕ}

/-- **One variable changes.**  What it holds then has bytes apart from those of the
others, and those stay. -/
theorem assign (h : Represents S T F σ π) (hmeans : Means T m held owned G)
    (hkeeps : ∀ y, y ≠ x → Objects.Keeps T.sizeOf σ.heap.memory m (F y))
    (hc : σ.heap.consumed ≤ c) (hc' : c ≤ S.len) (hbelow : ∀ s ∈ G, s.stop ≤ S.base + c)
    (hsep : Types.Separate G) (hapart : ∀ y, y ≠ x → ∀ s ∈ G, ∀ t ∈ F y, s.Apart t) :
    Represents S T (Function.update F x G) { σ.assign x held with heap := ⟨c, m⟩ }
      (π.assign x owned) where
  means := by
    intro y
    show Means T m (Function.update σ.vars x held y) (Function.update π.vars x owned y)
      (Function.update F x G y)
    by_cases hy : y = x
    · rw [hy, Function.update_self, Function.update_self, Function.update_self]
      exact hmeans
    · rw [Function.update_of_ne hy, Function.update_of_ne hy, Function.update_of_ne hy]
      exact (h.means y).keeps (hkeeps y hy)
  log := h.log
  level := hc'
  below := by
    intro y s hs
    by_cases hy : y = x
    · rw [hy, Function.update_self] at hs
      exact hbelow s hs
    · rw [Function.update_of_ne hy] at hs
      exact (h.below y s hs).trans (Nat.add_le_add_left hc _)
  separate := by
    intro y
    by_cases hy : y = x
    · rw [hy, Function.update_self]
      exact hsep
    · rw [Function.update_of_ne hy]
      exact h.separate y
  apart := by
    intro y z hyz s hs t ht
    by_cases hy : y = x
    · have hz : z ≠ x := fun hz => hyz (hy.trans hz.symm)
      rw [hy, Function.update_self] at hs
      rw [Function.update_of_ne hz] at ht
      exact hapart z hz s hs t ht
    · rw [Function.update_of_ne hy] at hs
      by_cases hz : z = x
      · rw [hz, Function.update_self] at ht
        exact (hapart y hy t ht s hs).symm
      · rw [Function.update_of_ne hz] at ht
        exact h.apart y z hyz s hs t ht

/-- The variable keeps a part of its bytes, and the memory changes only in those. -/
theorem part (h : Represents S T F σ π) (hmeans : Means T m held owned G)
    (hkeeps : ∀ y, y ≠ x → Objects.Keeps T.sizeOf σ.heap.memory m (F y))
    (hsub : G.Sublist (F x)) :
    Represents S T (Function.update F x G) { σ.assign x held with heap.memory := m }
      (π.assign x owned) :=
  h.assign hmeans hkeeps le_rfl h.level (fun s hs => h.below x s (hsub.subset hs))
    ⟨fun s hs => (h.separate x).pos s (hsub.subset hs), (h.separate x).apart.sublist hsub⟩
    fun y hy s hs t ht => h.apart x y (Ne.symm hy) s (hsub.subset hs) t ht

omit [DecidableEq ι] in
/-- The bytes of one variable are vacated. -/
theorem keeps_erase (h : Represents S T F σ π) (hsub : G ⊆ F x) :
    ∀ y, y ≠ x → Objects.Keeps T.sizeOf σ.heap.memory (σ.heap.memory.erase G) (F y) := by
  intro y hy
  refine Objects.keeps_erase fun s hs => ⟨(h.separate y).pos s hs, fun t ht => ?_⟩
  exact ⟨(h.separate x).pos t (hsub ht), h.apart y x hy s hs t (hsub ht)⟩

omit [DecidableEq ι] in
theorem logged (h : Represents S T F σ π) (log : Log τ δ) :
    Represents S T F { σ with log := σ.log ++ log } { π with log := π.log ++ log } where
  means := h.means
  log := congrArg (· ++ log) h.log
  level := h.level
  below := h.below
  separate := h.separate
  apart := h.apart

variable {v : Value τ δ} {k : Kind} {this : LeakBox τ} {t : Rose (τ × δ)}

omit [DecidableEq ι] in
theorem free (h : Represents S T F σ π) (hx : σ.vars x = none) : π.vars x = none ∧ F x = [] := by
  have hmeans := h.means x
  rw [hx] at hmeans
  generalize π.vars x = o at hmeans ⊢
  generalize F x = G at hmeans ⊢
  cases hmeans
  exact ⟨rfl, rfl⟩

omit [DecidableEq ι] in
theorem value (h : Represents S T F σ π) (hx : σ.vars x = some (.value v)) :
    ∃ t, π.vars x = some (.value t) ∧ Holds T σ.heap.memory v (F x) t := by
  have hmeans := h.means x
  rw [hx] at hmeans
  generalize π.vars x = o at hmeans ⊢
  generalize F x = G at hmeans ⊢
  cases hmeans with
  | value hholds => exact ⟨_, rfl, hholds⟩

omit [DecidableEq ι] in
theorem place (h : Represents S T F σ π) (hx : σ.vars x = some (.place k this))
    (hk : k ≠ .uninit) :
    ∃ t, π.vars x = some (.place k t) ∧ HoldsAt T σ.heap.memory this (F x) t := by
  have hmeans := h.means x
  rw [hx] at hmeans
  generalize π.vars x = o at hmeans ⊢
  generalize F x = G at hmeans ⊢
  cases hmeans with
  | place _ hholds => exact ⟨_, rfl, hholds⟩
  | room => exact absurd rfl hk

omit [DecidableEq ι] in
theorem room (h : Represents S T F σ π) (hx : σ.vars x = some (.place .uninit this)) :
    T.Valid this ∧ π.vars x = some (.room this.type) ∧ F x = T.spans this := by
  have hmeans := h.means x
  rw [hx] at hmeans
  generalize π.vars x = o at hmeans ⊢
  generalize F x = G at hmeans ⊢
  cases hmeans with
  | place hne => exact absurd rfl hne
  | room hvalid => exact ⟨hvalid, rfl, rfl⟩

/-- A variable gives up what it has. -/
theorem release (h : Represents S T F σ π) (x : ι) :
    Represents S T (Function.update F x []) (σ.assign x none) (π.assign x none) :=
  h.part (m := σ.heap.memory) .none (fun _ _ => Objects.Keeps.refl) (List.nil_sublist _)

/-- A variable drops what it has. -/
theorem drops (h : Represents S T F σ π) (x : ι) (t : Rose (τ × δ)) :
    Represents S T (Function.update F x [])
      { σ.assign x none with
        heap.memory := σ.heap.memory.erase (F x), log := σ.log ++ t.preorder }
      ((π.assign x none).drops t) :=
  (h.part .none (h.keeps_erase (List.Subset.refl _)) (List.nil_sublist _)).logged t.preorder

omit [DecidableEq ι] in
/-- The bytes of a place that was just handed out are nobody's. -/
theorem fresh_apart (h : Represents S T F σ π)
    (hgranted : Granted S T σ.heap.consumed c this) :
    ∀ s ∈ T.spans this, ∀ t ∈ F y, s.Apart t := by
  intro s hs t ht
  exact Or.inr ((h.below y t ht).trans (hgranted.fresh s hs).1)

/-- A value is moved to a place that was just handed out. -/
theorem granted (h : Represents S T F σ π) (hv : Holds T σ.heap.memory v (F x) t)
    (hgranted : Granted S T σ.heap.consumed c this) (htype : this.type = v.type)
    (hk : k ≠ .uninit) :
    Represents S T (Function.update F x (T.spans this ++ F x))
      { σ.assign x (some (.place k this)) with
        heap := ⟨c, T.stored σ.heap.memory this.pointer v⟩ }
      (π.assign x (some (.place k t))) := by
  obtain ⟨p, type⟩ := this
  obtain rfl : type = v.type := htype
  have hkeeps : ∀ y, Objects.Keeps T.sizeOf σ.heap.memory (T.stored σ.heap.memory p v) (F y) :=
    fun y => Types.keeps_stored fun s hs => ⟨(h.separate y).pos s hs, fun t ht =>
      (h.fresh_apart hgranted t ht s hs).symm⟩
  refine h.assign (.place hk (holdsAt_iff.mpr
    ⟨v, F x, Types.read_stored hgranted.valid hv.1, rfl, hv.keeps (hkeeps x)⟩))
    (fun y _ => hkeeps y) hgranted.le hgranted.le_len ?_ ⟨?_, ?_⟩ ?_
  · intro s hs
    rcases List.mem_append.mp hs with hs | hs
    · exact (hgranted.fresh s hs).2
    · exact (h.below x s hs).trans (Nat.add_le_add_left hgranted.le _)
  · intro s hs
    rcases List.mem_append.mp hs with hs | hs
    · exact Types.spans_pos s hs
    · exact (h.separate x).pos s hs
  · refine List.pairwise_append.mpr ⟨Types.spans_apart, (h.separate x).apart, ?_⟩
    exact h.fresh_apart hgranted
  · intro y hy s hs t ht
    rcases List.mem_append.mp hs with hs | hs
    · exact h.fresh_apart hgranted s hs t ht
    · exact h.apart x y (Ne.symm hy) s hs t ht

end Represents

/-! ## One act -/

/-- The act ends, and the owners can do the same. -/
def Matched (S : Storage w) (T : Types w τ δ) (b : Build) (σ : State ι τ δ) (π : Estate ι τ δ)
    (act : Act ι τ δ) : Prop :=
  ∃ σ' reply π' F', σ.Ends S T b act σ' reply ∧ (owners ι τ δ).step π (act, reply) π' ∧
    Represents S T F' σ' π'

section

variable {b : Build} {F : ι → List Span} {σ : State ι τ δ} {π : Estate ι τ δ} {x y : ι}
  {v : Value τ δ} {k : Kind} {this : LeakBox τ} {level : Bump.Level}

theorem matched_make {type : τ} {data : δ} (h : Represents S T F σ π) (hx : σ.vars x = none)
    (honly : (T.layout type).size = 0 → T.only type = some data) :
    Matched S T b σ π (.make x type data) := by
  obtain ⟨hfree, hF⟩ := h.free hx
  have hholds : Holds T σ.heap.memory ⟨type, data, []⟩ [] (.node (type, data) []) :=
    ⟨fun hzero => ⟨honly hzero, rfl⟩, [], rfl, rfl, rfl⟩
  exact ⟨_, .done, _, _, ⟨0, fun _ _ => rfl⟩, .make hfree,
    h.part (m := σ.heap.memory) (.value hholds) (fun _ _ => Objects.Keeps.refl)
      (List.nil_sublist _)⟩

theorem matched_discard (h : Represents S T F σ π) (hx : σ.vars x = some (.value v)) :
    Matched S T b σ π (.discard x) := by
  obtain ⟨t, ht, hholds⟩ := h.value hx
  refine ⟨_, .done, _, _, ⟨t.height, fun fuel hfuel => ?_⟩, .discard ht, h.drops x t⟩
  rw [State.exec, hx]
  simp only [dropValue_eq hholds (h.separate x), if_pos (hfuel.trans (Nat.le_succ _)), ok_bind]
  rfl

theorem matched_attach (h : Represents S T F σ π) (hx : σ.vars x = some (.value v))
    (hy : σ.vars y = some (.place .boxed this)) (hpos : 0 < T.sizeOf v) :
    Matched S T b σ π (.attach x y) := by
  obtain ⟨t, ht, -, ts, rfl, hall⟩ := h.value hx
  obtain ⟨t', ht', hat⟩ := h.place hy (by decide)
  have hne : x ≠ y := by
    rintro rfl
    rw [hx] at hy
    exact absurd hy (by simp)
  have hholds : Holds T σ.heap.memory { v with boxes := this :: v.boxes } (F y ++ F x)
      (.node (v.type, v.data) (t' :: ts)) :=
    ⟨fun hzero => absurd hzero (Nat.ne_of_gt hpos), _, rfl, this, v.boxes, F y, F x, rfl, rfl,
      hat, hall⟩
  refine ⟨_, .done, _, _, ⟨0, fun _ _ => ?_⟩, .attach ht ht',
    (h.release y).assign (m := σ.heap.memory) (.value hholds) (fun _ _ => Objects.Keeps.refl)
      le_rfl h.level ?_ ⟨?_, ?_⟩ ?_⟩
  · rw [State.exec, hx, hy]
    rfl
  · intro s hs
    rcases List.mem_append.mp hs with hs | hs
    · exact h.below y s hs
    · exact h.below x s hs
  · intro s hs
    rcases List.mem_append.mp hs with hs | hs
    · exact (h.separate y).pos s hs
    · exact (h.separate x).pos s hs
  · exact List.pairwise_append.mpr
      ⟨(h.separate y).apart, (h.separate x).apart, h.apart y x (Ne.symm hne)⟩
  · intro z hz s hs t'' ht''
    by_cases hzy : z = y
    · rw [hzy, Function.update_self] at ht''
      exact absurd ht'' List.not_mem_nil
    · rw [Function.update_of_ne hzy] at ht''
      rcases List.mem_append.mp hs with hs | hs
      · exact h.apart y z (Ne.symm hzy) s hs t'' ht''
      · exact h.apart x z (Ne.symm hz) s hs t'' ht''

theorem matched_detach {type : τ} {data : δ} {boxes : List (LeakBox τ)}
    (h : Represents S T F σ π) (hx : σ.vars x = some (.value ⟨type, data, this :: boxes⟩))
    (hy : σ.vars y = none) : Matched S T b σ π (.detach x y) := by
  obtain ⟨t, ht, hproper, ts, rfl, hall⟩ := h.value hx
  obtain ⟨hfree, hFy⟩ := h.free hy
  have hne : y ≠ x := by
    rintro rfl
    rw [hx] at hy
    exact absurd hy (by simp)
  cases ts with
  | nil => exact absurd hall.1 (by simp)
  | cons t' ts =>
    obtain ⟨this', boxes', G, G', hboxes, hF, hat, hrest⟩ := hall
    obtain ⟨rfl, rfl⟩ := List.cons.inj hboxes
    have hsep := h.separate x
    rw [hF] at hsep
    have hholds : Holds T σ.heap.memory ⟨type, data, boxes⟩ G' (.node (type, data) ts) :=
      ⟨fun hzero => absurd (hproper hzero).2 (by simp), ts, rfl, hrest⟩
    have hpart := h.part (m := σ.heap.memory) (.value hholds) (fun _ _ => Objects.Keeps.refl)
      (hF ▸ List.sublist_append_right G G')
    have hsub : ∀ s ∈ G, s ∈ F x := fun s hs => hF ▸ List.mem_append_left _ hs
    refine ⟨_, .done, _, _, ⟨0, fun _ _ => ?_⟩, .detach ht hfree,
      hpart.assign (m := σ.heap.memory) (.place (by decide) hat)
        (fun _ _ => Objects.Keeps.refl) le_rfl h.level (fun s hs => h.below x s (hsub s hs))
        hsep.append.1 ?_⟩
    · rw [State.exec, hx]
      rfl
    · intro z hz s hs t'' ht''
      by_cases hzx : z = x
      · rw [hzx, Function.update_self] at ht''
        exact hsep.append.2.2 s hs t'' ht''
      · rw [Function.update_of_ne hzx] at ht''
        exact h.apart x z (Ne.symm hzx) s (hsub s hs) t'' ht''

theorem matched_leakBox (h : Represents S T F σ π) (hx : σ.vars x = some (.value v)) :
    Matched S T b σ π (.leakBox x) := by
  obtain ⟨t, ht, hholds⟩ := h.value hx
  rcases leakBox_spec h.level hholds (h.separate x) with ⟨c, this, hg, htype, heq⟩ | heq
  · refine ⟨_, .done, _, _, ⟨0, fun fuel _ => ?_⟩, .leakBox ht,
      h.granted hholds hg htype (by decide)⟩
    rw [State.exec, hx]
    simp only [heq, ok_bind, List.append_nil]
    rfl
  · refine ⟨_, .refused, _, _, ⟨t.height, fun fuel hfuel => ?_⟩,
      .leakBox_refused ht, h.drops x t⟩
    rw [State.exec, hx]
    simp only [heq fuel hfuel, ok_bind]
    rfl

theorem matched_leakBoxAt (h : Represents S T F σ π) (hx : σ.vars x = some (.value v))
    (hlevel : level ≤ S.len) : Matched S T b σ π (.leakBoxAt x level) := by
  obtain ⟨t, ht, hholds⟩ := h.value hx
  rcases leakBoxAt_spec h.level hholds (h.separate x) hlevel with
    ⟨c, this, hg, htype, heq⟩ | ⟨failure, heq⟩
  · refine ⟨_, .done, _, _, ⟨0, fun fuel _ => ?_⟩, .leakBoxAt ht,
      h.granted hholds hg htype (by decide)⟩
    rw [State.exec, hx]
    simp only [heq, ok_bind, List.append_nil]
    rfl
  · refine ⟨_, .refused, _, _, ⟨t.height, fun fuel hfuel => ?_⟩,
      .leakBoxAt_refused ht, h.drops x t⟩
    rw [State.exec, hx]
    simp only [heq fuel hfuel, ok_bind]
    rfl

omit [DecidableEq τ] in
/-- A value that is given back goes where it was. -/
theorem assign_back (hx : σ.vars x = some (.value v)) :
    { σ.assign x (some (.value v)) with heap := σ.heap } = σ := by
  have hvars : Function.update σ.vars x (some (.value v)) = σ.vars := by
    rw [← hx, Function.update_eq_self]
  rw [State.assign, hvars]

theorem matched_leak (h : Represents S T F σ π) (hx : σ.vars x = some (.value v)) :
    Matched S T b σ π (.leak x) := by
  obtain ⟨t, ht, hholds⟩ := h.value hx
  rcases leak_spec T h.level v with ⟨c, this, hg, htype, heq⟩ | ⟨failure, heq⟩
  · refine ⟨_, .done, _, _, ⟨0, fun fuel _ => ?_⟩, .leak ht,
      h.granted hholds hg htype (by decide)⟩
    rw [State.exec, hx]
    simp only [heq, ok_bind]
    rfl
  · refine ⟨σ, .refused, _, _, ⟨0, fun fuel _ => ?_⟩, .leak_refused ht, h⟩
    rw [State.exec, hx]
    simp only [heq, ok_bind]
    rw [assign_back hx]
    rfl

theorem matched_leakAt (h : Represents S T F σ π) (hx : σ.vars x = some (.value v))
    (hlevel : level ≤ S.len) : Matched S T b σ π (.leakAt x level) := by
  obtain ⟨t, ht, hholds⟩ := h.value hx
  rcases leakAt_spec T h.level v hlevel with ⟨c, this, after, hg, htype, heq⟩ | ⟨failure, heq⟩
  · refine ⟨_, .done, _, _, ⟨0, fun fuel _ => ?_⟩, .leakAt ht,
      h.granted hholds hg htype (by decide)⟩
    rw [State.exec, hx]
    simp only [heq, ok_bind]
    rfl
  · refine ⟨σ, .refused, _, _, ⟨0, fun fuel _ => ?_⟩, .leakAt_refused ht, h⟩
    rw [State.exec, hx]
    simp only [heq, ok_bind]
    rw [assign_back hx]
    rfl

theorem matched_leakUninit {type : τ} (h : Represents S T F σ π) (hx : σ.vars x = none) :
    Matched S T b σ π (.leakUninit x type) := by
  obtain ⟨hfree, hF⟩ := h.free hx
  rcases leakUninit_spec T h.level type with ⟨c, p, hg, heq⟩ | heq
  · refine ⟨_, .done, _, _, ⟨0, fun fuel _ => ?_⟩, .leakUninit hfree,
      h.assign (m := T.clear σ.heap.memory p type) (.room hg.valid) ?_ hg.le hg.le_len
        (fun s hs => (hg.fresh s hs).2) ⟨Types.spans_pos, Types.spans_apart⟩
        fun y _ => h.fresh_apart hg⟩
    · rw [State.exec]
      simp only [heq, ok_bind]
      rfl
    · exact fun y _ => Types.keeps_clear fun s hs t ht => (h.fresh_apart hg t ht s hs).symm
  · refine ⟨σ, .refused, _, _, ⟨0, fun fuel _ => ?_⟩, .leakUninit_refused hfree, h⟩
    rw [State.exec]
    simp only [heq, ok_bind]
    rfl

/-- A value is moved to a place that was kept for it. -/
theorem matched_write (h : Represents S T F σ π) (hx : σ.vars x = some (.place .uninit this))
    (hy : σ.vars y = some (.value v)) (htype : v.type = this.type) :
    Matched S T b σ π (.write x y) := by
  obtain ⟨hvalid, hroom, hF⟩ := h.room hx
  obtain ⟨t, ht, hholds⟩ := h.value hy
  obtain ⟨p, type⟩ := this
  obtain rfl : v.type = type := htype
  have hne : x ≠ y := by
    rintro rfl
    rw [hx] at hy
    exact absurd hy (by simp)
  have hroot : t.root.1 = v.type := by
    obtain ⟨-, ts, rfl, -⟩ := hholds
    rfl
  have hkeeps : ∀ z, z ≠ x →
      Objects.Keeps T.sizeOf σ.heap.memory (T.stored σ.heap.memory p v) (F z) := by
    intro z hz
    refine Types.keeps_stored fun s hs => ⟨(h.separate z).pos s hs, fun t ht => ?_⟩
    exact h.apart z x hz s hs t (hF ▸ ht)
  have hat : HoldsAt T (T.stored σ.heap.memory p v) ⟨p, v.type⟩ (T.spans ⟨p, v.type⟩ ++ F y) t :=
    holdsAt_iff.mpr ⟨v, F y, Types.read_stored hvalid hholds.1, rfl,
      hholds.keeps (hkeeps y (Ne.symm hne))⟩
  refine ⟨_, .done, _, _, ⟨0, fun _ _ => ?_⟩, .write (hroot ▸ hroom) ht,
    (h.release y).assign (.place (k := .boxed) (by decide) hat) ?_ le_rfl h.level ?_ ⟨?_, ?_⟩ ?_⟩
  · rw [State.exec, hx, hy]
    simp only [LeakBox.write, Types.write_eq hvalid, ok_bind]
    rfl
  · intro z hz
    by_cases hzy : z = y
    · rw [hzy, Function.update_self]
      exact fun s hs => absurd hs List.not_mem_nil
    · rw [Function.update_of_ne hzy]
      exact hkeeps z hz
  · intro s hs
    rcases List.mem_append.mp hs with hs | hs
    · exact h.below x s (hF ▸ hs)
    · exact h.below y s hs
  · intro s hs
    rcases List.mem_append.mp hs with hs | hs
    · exact Types.spans_pos s hs
    · exact (h.separate y).pos s hs
  · exact List.pairwise_append.mpr
      ⟨Types.spans_apart, (h.separate y).apart, hF ▸ h.apart x y hne⟩
  · intro z hz s hs t'' ht''
    by_cases hzy : z = y
    · rw [hzy, Function.update_self] at ht''
      exact absurd ht'' List.not_mem_nil
    · rw [Function.update_of_ne hzy] at ht''
      rcases List.mem_append.mp hs with hs | hs
      · exact h.apart x z (Ne.symm hz) s (hF ▸ hs) t'' ht''
      · exact h.apart y z (Ne.symm hzy) s hs t'' ht''

theorem matched_read_value (h : Represents S T F σ π) (hx : σ.vars x = some (.value v)) :
    Matched S T b σ π (.read x) := by
  obtain ⟨t, ht, hholds⟩ := h.value hx
  obtain ⟨-, ts, rfl, -⟩ := hholds
  refine ⟨σ, .saw v.data, π, F, ⟨0, fun _ _ => ?_⟩, .read ht rfl, h⟩
  rw [State.exec, hx]

theorem matched_read_place (h : Represents S T F σ π) (hx : σ.vars x = some (.place k this))
    (hk : k ≠ .uninit) : Matched S T b σ π (.read x) := by
  obtain ⟨t, ht, hat⟩ := h.place hx hk
  obtain ⟨v, G, hread, -, -, ts, rfl, -⟩ := holdsAt_iff.mp hat
  refine ⟨σ, .saw v.data, π, F, ⟨0, fun _ _ => ?_⟩, .read ht rfl, h⟩
  rw [State.exec, hx]
  simp only [hread, ok_bind]
  rfl

theorem matched_take (h : Represents S T F σ π) (hx : σ.vars x = some (.place .boxed this)) :
    Matched S T b σ π (.take x) := by
  obtain ⟨t, ht, hat⟩ := h.place hx (by decide)
  obtain ⟨v, G, hread, hF, hholds⟩ := holdsAt_iff.mp hat
  have hsep := h.separate x
  rw [hF] at hsep
  have hsub : T.spans this ⊆ F x := hF ▸ List.subset_append_left _ _
  refine ⟨_, .done, _, _, ⟨0, fun _ _ => ?_⟩, .take ht,
    h.part (.value (hholds.keeps hsep.keeps_erase)) (h.keeps_erase hsub)
      (hF ▸ List.sublist_append_right _ G)⟩
  rw [State.exec, hx]
  simp only [LeakBox.take, hread, ok_bind]
  rfl

theorem matched_drop (h : Represents S T F σ π) (hx : σ.vars x = some (.place .boxed this)) :
    Matched S T b σ π (.drop x) := by
  obtain ⟨t, ht, hat⟩ := h.place hx (by decide)
  refine ⟨_, .done, _, _, ⟨t.height, fun fuel hfuel => ?_⟩, .drop ht, h.drops x t⟩
  rw [State.exec, hx]
  simp only [dropInPlace_eq t hat (h.separate x), if_pos hfuel, ok_bind]
  rfl

/-- The value of a box is replaced; what was there goes to the variable it came from. -/
theorem matched_replace (h : Represents S T F σ π) (hx : σ.vars x = some (.place k this))
    (hk : k ≠ .uninit) (hy : σ.vars y = some (.value v)) (htype : v.type = this.type) :
    Matched S T b σ π (.replace x y) := by
  obtain ⟨t, ht, hat⟩ := h.place hx hk
  obtain ⟨t', ht', hholds⟩ := h.value hy
  obtain ⟨old, G, hread, hF, hold⟩ := holdsAt_iff.mp hat
  obtain ⟨hvalid, hold_type, -, -⟩ := Types.read_ok hread
  obtain ⟨p, type⟩ := this
  obtain rfl : v.type = type := htype
  have hne : y ≠ x := by
    rintro rfl
    rw [hx] at hy
    exact absurd hy (by simp)
  have hroots : t'.root.1 = t.root.1 := by
    obtain ⟨-, ts, rfl, -⟩ := hold
    obtain ⟨-, ts', rfl, -⟩ := hholds
    exact hold_type.symm
  have hsep := h.separate x
  rw [hF] at hsep
  have hspans : ∀ s ∈ T.spans ⟨p, v.type⟩, s ∈ F x := fun s hs => hF ▸ List.mem_append_left _ hs
  have hG : ∀ s ∈ G, s ∈ F x := fun s hs => hF ▸ List.mem_append_right _ hs
  have hkeeps : ∀ z, z ≠ x →
      Objects.Keeps T.sizeOf σ.heap.memory (T.stored σ.heap.memory p v) (F z) := by
    intro z hz
    refine Types.keeps_stored fun s hs => ⟨(h.separate z).pos s hs, fun t ht => ?_⟩
    exact h.apart z x hz s hs t (hspans t ht)
  have hkeeps_old : Objects.Keeps T.sizeOf σ.heap.memory (T.stored σ.heap.memory p v) G :=
    Types.keeps_stored fun s hs => ⟨hsep.append.2.1.pos s hs, fun t ht =>
      (hsep.append.2.2 t ht s hs).symm⟩
  have hnew : HoldsAt T (T.stored σ.heap.memory p v) ⟨p, v.type⟩ (T.spans ⟨p, v.type⟩ ++ F y) t' :=
    holdsAt_iff.mpr ⟨v, F y, Types.read_stored hvalid hholds.1, rfl, hholds.keeps (hkeeps y hne)⟩
  -- for a moment nobody has the old value
  have hmid : Represents S T (Function.update (Function.update F y []) x
      (T.spans ⟨p, v.type⟩ ++ F y))
      { (σ.assign y none).assign x (some (.place k ⟨p, v.type⟩)) with
        heap.memory := T.stored σ.heap.memory p v }
      ((π.assign y none).assign x (some (.place k t'))) := by
    refine (h.release y).assign (.place hk hnew) ?_ le_rfl h.level ?_ ⟨?_, ?_⟩ ?_
    · intro z hz
      by_cases hzy : z = y
      · rw [hzy, Function.update_self]
        exact fun s hs => absurd hs List.not_mem_nil
      · rw [Function.update_of_ne hzy]
        exact hkeeps z hz
    · intro s hs
      rcases List.mem_append.mp hs with hs | hs
      · exact h.below x s (hspans s hs)
      · exact h.below y s hs
    · intro s hs
      rcases List.mem_append.mp hs with hs | hs
      · exact Types.spans_pos s hs
      · exact (h.separate y).pos s hs
    · exact List.pairwise_append.mpr ⟨Types.spans_apart, (h.separate y).apart,
        fun s hs t ht => h.apart x y (Ne.symm hne) s (hspans s hs) t ht⟩
    · intro z hz s hs t'' ht''
      by_cases hzy : z = y
      · rw [hzy, Function.update_self] at ht''
        exact absurd ht'' List.not_mem_nil
      · rw [Function.update_of_ne hzy] at ht''
        rcases List.mem_append.mp hs with hs | hs
        · exact h.apart x z (Ne.symm hz) s (hspans s hs) t'' ht''
        · exact h.apart y z (Ne.symm hzy) s hs t'' ht''
  have hend := hmid.assign (x := y) (m := T.stored σ.heap.memory p v)
    (.value (hold.keeps hkeeps_old)) (fun _ _ => Objects.Keeps.refl) le_rfl h.level
    (fun s hs => h.below x s (hG s hs)) hsep.append.2.1 (by
      intro z hz s hs t'' ht''
      by_cases hzx : z = x
      · rw [hzx, Function.update_self] at ht''
        rcases List.mem_append.mp ht'' with ht'' | ht''
        · exact (hsep.append.2.2 t'' ht'' s hs).symm
        · exact h.apart x y (Ne.symm hne) s (hG s hs) t'' ht''
      · rw [Function.update_of_ne hzx, Function.update_of_ne hz] at ht''
        exact h.apart x z (Ne.symm hzx) s (hG s hs) t'' ht'')
  refine ⟨_, .done, _, _, ⟨0, fun _ _ => ?_⟩, ?_, hend⟩
  · have hvars : Function.update (Function.update (Function.update σ.vars y none) x
        (some (.place k ⟨p, v.type⟩))) y (some (.value old)) =
        Function.update σ.vars y (some (.value old)) := by
      rw [Function.update_comm hne, Function.update_idem, ← hx, Function.update_eq_self]
    rw [State.exec, hx, hy]
    simp only [LeakBox.replace, hread, Types.write_eq hvalid, ok_bind, State.assign, hvars]
    rfl
  · have hvars : Function.update (Function.update (Function.update π.vars y none) x
        (some (.place k t'))) y (some (.value t)) =
        Function.update (Function.update π.vars x (some (.place k t'))) y (some (.value t)) := by
      rw [Function.update_comm hne, Function.update_idem]
    simp only [Estate.assign, hvars]
    exact .replace ht ht' hroots

/-- A pointer is seen as something else. -/
theorem represents_recast (h : Represents S T F σ π) {t : Rose (τ × δ)} {k' : Kind}
    (hat : HoldsAt T σ.heap.memory this (F x) t) (hk' : k' ≠ .uninit) :
    Represents S T (Function.update F x (F x)) (σ.assign x (some (.place k' this)))
      (π.assign x (some (.place k' t))) :=
  h.part (m := σ.heap.memory) (.place hk' hat) (fun _ _ => Objects.Keeps.refl)
    (List.Sublist.refl _)

omit [DecidableEq τ] in
theorem fromRaw_eq (hvalid : T.Valid this) :
    LeakBox.fromRaw b this.type this.pointer = .ok this := by
  rw [LeakBox.fromRaw]
  cases b with
  | debug =>
    simp only [debugAssert, assert, if_pos (show this.pointer ≠ 0 from hvalid.nonnull),
      if_neg hvalid.nonnull, ok_bind]
    rfl
  | release =>
    simp only [debugAssert, if_neg hvalid.nonnull, ok_bind]
    rfl

theorem matched_intoRaw (h : Represents S T F σ π) (hx : σ.vars x = some (.place .boxed this)) :
    Matched S T b σ π (.intoRaw x) := by
  obtain ⟨t, ht, hat⟩ := h.place hx (by decide)
  refine ⟨_, .done, _, _, ⟨0, fun _ _ => ?_⟩, .intoRaw ht, represents_recast h hat (by decide)⟩
  rw [State.exec, hx]
  rfl

theorem matched_intoRef (h : Represents S T F σ π) (hx : σ.vars x = some (.place .boxed this)) :
    Matched S T b σ π (.intoRef x) := by
  obtain ⟨t, ht, hat⟩ := h.place hx (by decide)
  refine ⟨_, .done, _, _, ⟨0, fun _ _ => ?_⟩, .intoRef ht, represents_recast h hat (by decide)⟩
  rw [State.exec, hx]
  rfl

theorem matched_fromRaw (h : Represents S T F σ π) (hx : σ.vars x = some (.place .raw this)) :
    Matched S T b σ π (.fromRaw x) := by
  obtain ⟨t, ht, hat⟩ := h.place hx (by decide)
  obtain ⟨v, G, hread, -⟩ := holdsAt_iff.mp hat
  refine ⟨_, .done, _, _, ⟨0, fun _ _ => ?_⟩, .fromRaw ht, represents_recast h hat (by decide)⟩
  rw [State.exec, hx]
  simp only [fromRaw_eq (Types.read_ok hread).1, ok_bind]
  rfl

theorem matched_fromMutUnchecked (h : Represents S T F σ π)
    (hx : σ.vars x = some (.place .reference this)) :
    Matched S T b σ π (.fromMutUnchecked x) := by
  obtain ⟨t, ht, hat⟩ := h.place hx (by decide)
  obtain ⟨v, G, hread, -⟩ := holdsAt_iff.mp hat
  refine ⟨_, .done, _, _, ⟨0, fun _ _ => ?_⟩, .fromMutUnchecked ht,
    represents_recast h hat (by decide)⟩
  rw [State.exec, hx]
  simp only [LeakBox.fromMutUnchecked, fromRaw_eq (Types.read_ok hread).1, ok_bind]
  rfl

theorem matched_forget (h : Represents S T F σ π) (hx : σ.vars x ≠ none) :
    Matched S T b σ π (.forget x) := by
  refine ⟨_, .done, _, _, ⟨0, fun _ _ => rfl⟩, .forget ?_, h.release x⟩
  intro hπ
  have hmeans := h.means x
  rw [hπ] at hmeans
  generalize σ.vars x = held at hmeans hx
  generalize F x = G at hmeans
  cases hmeans
  exact hx rfl

theorem matched_reset (h : Represents S T F σ π)
    (hvars : ∀ x held, σ.vars x = some held → ∃ type data, held = .value ⟨type, data, []⟩) :
    Matched S T b σ π .reset := by
  have hF : ∀ x, F x = [] := by
    intro x
    cases hx : σ.vars x with
    | none => exact (h.free hx).2
    | some held =>
      obtain ⟨type, data, rfl⟩ := hvars x held hx
      obtain ⟨t, -, -, ts, -, hall⟩ := h.value hx
      cases ts with
      | nil => exact hall.2
      | cons t' ts =>
        obtain ⟨b, boxes, G, G', hboxes, -⟩ := hall
        exact absurd hboxes (by simp)
  exact ⟨_, .done, π, F, ⟨0, fun _ _ => rfl⟩, .reset, h.means, h.log, Nat.zero_le _,
    fun x s hs => absurd (hF x ▸ hs) List.not_mem_nil, h.separate, h.apart⟩

/-- **Every act is matched.** -/
theorem matched (h : Represents S T F σ π) {act : Act ι τ δ} (hen : σ.Enabled S T act) :
    Matched S T b σ π act := by
  cases act with
  | make x type data => exact matched_make h hen.1 hen.2
  | discard x =>
    obtain ⟨v, hx⟩ := hen
    exact matched_discard h hx
  | attach x y =>
    obtain ⟨v, this, hx, hy, hpos⟩ := hen
    exact matched_attach h hx hy hpos
  | detach x y =>
    obtain ⟨⟨type, data, this, boxes, hx⟩, hy⟩ := hen
    exact matched_detach h hx hy
  | leakBox x =>
    obtain ⟨v, hx⟩ := hen
    exact matched_leakBox h hx
  | leakBoxAt x level =>
    obtain ⟨⟨v, hx⟩, hlevel⟩ := hen
    exact matched_leakBoxAt h hx hlevel
  | leak x =>
    obtain ⟨v, hx⟩ := hen
    exact matched_leak h hx
  | leakAt x level =>
    obtain ⟨⟨v, hx⟩, hlevel⟩ := hen
    exact matched_leakAt h hx hlevel
  | leakUninit x type => exact matched_leakUninit h hen
  | write x y =>
    obtain ⟨this, v, hx, hy, htype⟩ := hen
    exact matched_write h hx hy htype
  | read x =>
    rcases hen with ⟨v, hx⟩ | ⟨k, this, hx, rfl | rfl⟩
    · exact matched_read_value h hx
    · exact matched_read_place h hx (by decide)
    · exact matched_read_place h hx (by decide)
  | replace x y =>
    obtain ⟨k, this, v, hx, rfl | rfl, hy, htype⟩ := hen
    · exact matched_replace h hx (by decide) hy htype
    · exact matched_replace h hx (by decide) hy htype
  | take x =>
    obtain ⟨this, hx⟩ := hen
    exact matched_take h hx
  | drop x =>
    obtain ⟨this, hx⟩ := hen
    exact matched_drop h hx
  | intoRaw x =>
    obtain ⟨this, hx⟩ := hen
    exact matched_intoRaw h hx
  | fromRaw x =>
    obtain ⟨this, hx⟩ := hen
    exact matched_fromRaw h hx
  | intoRef x =>
    obtain ⟨this, hx⟩ := hen
    exact matched_intoRef h hx
  | fromMutUnchecked x =>
    obtain ⟨this, hx⟩ := hen
    exact matched_fromMutUnchecked h hx
  | forget x => exact matched_forget h hen
  | reset => exact matched_reset h hen

end

end Leaked
end StaticAlloc
