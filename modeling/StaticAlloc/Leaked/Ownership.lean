import StaticAlloc.Leaked.Model
import StaticAlloc.Library.Trees

/-!
# The tree a box owns

A box stands for a tree: the value it points to, and below it the trees of the boxes that
the value owns.  `HoldsAt` says that a memory holds a tree at a box, and which bytes it takes;
no two values of a tree share a byte, and the bytes of the tree are all that matters for it
(`HoldsAt.keeps`).

What the drop glue does is then a fact about trees (`dropInPlace_eq`): it runs the
destructors in preorder, ends when it has as much fuel as the tree is high, and
leaves the memory without the tree and otherwise as it was.
-/

namespace StaticAlloc
namespace Leaked

open Toolkit
open Rose (preorder preorders height heights)

variable {w : ℕ} {τ δ : Type} {T : Types w τ δ} {m m' : Objects (Value τ δ)}
  {b : LeakBox τ} {v : Value τ δ} {p : ℕ} {F G : List Span}

/-! ## Reading and writing -/

namespace Types

/-- A pointer through which values may be accessed. -/
structure Valid (T : Types w τ δ) (b : LeakBox τ) : Prop where
  nonnull : b.pointer ≠ 0
  aligned : (T.layout b.type).align ∣ b.pointer

/-- A value without bytes is the only one of its type, and owns nothing. -/
def Proper (T : Types w τ δ) (v : Value τ δ) : Prop :=
  T.sizeOf v = 0 → T.only v.type = some v.data ∧ v.boxes = []

/-- The spans of the list are not empty and share no byte. -/
structure Separate (F : List Span) : Prop where
  pos : ∀ s ∈ F, 0 < s.size
  apart : F.Pairwise Span.Apart

theorem Valid.not_or (h : T.Valid b) :
    ¬ (b.pointer = 0 ∨ ¬ (T.layout b.type).align ∣ b.pointer) := by
  rintro (h' | h')
  · exact h.nonnull h'
  · exact h' h.aligned

theorem spans_of_pos (hpos : 0 < (T.layout b.type).size) :
    T.spans b = [⟨b.pointer, (T.layout b.type).size⟩] := if_neg (Nat.ne_of_gt hpos)

theorem spans_of_zero (hzero : (T.layout b.type).size = 0) : T.spans b = [] := if_pos hzero

theorem spans_apart : (T.spans b).Pairwise Span.Apart := by
  rw [spans]
  split
  · exact List.Pairwise.nil
  · exact List.pairwise_singleton _ _

theorem spans_pos : ∀ s ∈ T.spans b, 0 < s.size := by
  intro s hs
  rw [spans] at hs
  split at hs
  · exact absurd hs List.not_mem_nil
  · rename_i hsize
    rw [List.mem_singleton.mp hs]
    exact Nat.pos_of_ne_zero hsize

section

variable [DecidableEq τ]

/-- What a read that succeeds says of the pointer and of the value. -/
theorem read_ok (h : T.read m b = .ok v) : T.Valid b ∧ v.type = b.type ∧ T.Proper v ∧
    (0 < (T.layout b.type).size → m b.pointer = some v) := by
  rw [read] at h
  split at h
  · exact absurd h (by simp)
  · rename_i hvalid
    rw [not_or, not_not] at hvalid
    refine ⟨⟨hvalid.1, hvalid.2⟩, ?_⟩
    split at h
    · rename_i hsize
      split at h
      · rename_i data honly
        obtain rfl := Except.ok.inj h
        exact ⟨rfl, fun _ => ⟨honly, rfl⟩, fun hpos => absurd hsize (Nat.ne_of_gt hpos)⟩
      · exact absurd h (by simp)
    · rename_i hsize
      split at h
      · rename_i v' hv'
        obtain rfl := Except.ok.inj h
        obtain ⟨hm, htype⟩ := Option.filter_eq_some_iff.mp hv'
        have htype' : v'.type = b.type := of_decide_eq_true htype
        refine ⟨htype', fun hzero => absurd ?_ hsize, fun _ => hm⟩
        rw [← htype']
        exact hzero
      · exact absurd h (by simp)

/-- Reading a live value. -/
theorem read_eq (hvalid : T.Valid b) (hpos : 0 < (T.layout b.type).size)
    (hm : m b.pointer = some v) (htype : v.type = b.type) : T.read m b = .ok v := by
  rw [read, if_neg hvalid.not_or, if_neg (Nat.ne_of_gt hpos), hm,
    Option.filter_some, if_pos (decide_eq_true htype)]

theorem read_keeps (h : T.read m b = .ok v) (hk : Objects.Keeps T.sizeOf m m' (T.spans b)) :
    T.read m' b = .ok v := by
  obtain ⟨hvalid, htype, -, hm⟩ := read_ok h
  rcases Nat.eq_zero_or_pos (T.layout b.type).size with hzero | hpos
  · rw [read, if_neg hvalid.not_or, if_pos hzero] at h ⊢
    exact h
  · refine read_eq hvalid hpos ?_ htype
    refine hk ⟨b.pointer, (T.layout b.type).size⟩ ?_ v (hm hpos) ?_
    · rw [spans_of_pos hpos]
      exact List.mem_singleton_self _
    · rw [sizeOf, htype]

/-- The memory after a value was written. -/
def stored (T : Types w τ δ) (m : Objects (Value τ δ)) (p : ℕ) (v : Value τ δ) :
    Objects (Value τ δ) :=
  if T.sizeOf v = 0 then m else m.write T.sizeOf p v

omit [DecidableEq τ] in
theorem write_eq (hvalid : T.Valid ⟨p, v.type⟩) : T.write m p v = .ok (T.stored m p v) := by
  rw [write, if_neg hvalid.not_or, stored]
  split
  · rfl
  · rfl

/-- **What was written is read.** -/
theorem read_stored (hvalid : T.Valid ⟨p, v.type⟩) (hproper : T.Proper v) :
    T.read (T.stored m p v) ⟨p, v.type⟩ = .ok v := by
  rcases Nat.eq_zero_or_pos (T.sizeOf v) with hzero | hpos
  · obtain ⟨honly, hboxes⟩ := hproper hzero
    rw [read, if_neg hvalid.not_or, if_pos (by exact hzero)]
    simp only [honly, ← hboxes]
  · rw [stored, if_neg (Nat.ne_of_gt hpos)]
    exact read_eq hvalid hpos Objects.write_self rfl

omit [DecidableEq τ] in
/-- What lies apart from a box is not touched by a write to it. -/
theorem keeps_stored (hF : ∀ s ∈ F, 0 < s.size ∧ ∀ t ∈ T.spans ⟨p, v.type⟩, s.Apart t) :
    Objects.Keeps T.sizeOf m (T.stored m p v) F := by
  rw [stored]
  split
  · exact Objects.Keeps.refl
  · rename_i hsize
    have hpos : 0 < T.sizeOf v := Nat.pos_of_ne_zero hsize
    refine Objects.keeps_write (fun s hs => ⟨(hF s hs).1, (hF s hs).2 _ ?_⟩) hpos
    rw [spans_of_pos hpos]
    exact List.mem_singleton_self _

omit [DecidableEq τ] in
theorem keeps_clear {type : τ} (hF : ∀ s ∈ F, ∀ t ∈ T.spans ⟨p, type⟩, s.Apart t) :
    Objects.Keeps T.sizeOf m (T.clear m p type) F := by
  rw [clear]
  split
  · exact Objects.Keeps.refl
  · rename_i hsize
    refine Objects.keeps_clear fun s hs => hF s hs _ ?_
    rw [spans_of_pos (Nat.pos_of_ne_zero hsize)]
    exact List.mem_singleton_self _

end

end Types

/-! ## Trees in memory -/

variable [DecidableEq τ]

mutual

/-- The memory holds a tree at a box, in the bytes of the spans. -/
def HoldsAt (T : Types w τ δ) (m : Objects (Value τ δ)) (b : LeakBox τ) (F : List Span) :
    Rose (τ × δ) → Prop
  | .node a ts => ∃ v G, T.read m b = .ok v ∧ a = (v.type, v.data) ∧ F = T.spans b ++ G ∧
      HoldsAll T m v.boxes G ts

/-- The memory holds trees at boxes, one after the other. -/
def HoldsAll (T : Types w τ δ) (m : Objects (Value τ δ)) (boxes : List (LeakBox τ))
    (F : List Span) : List (Rose (τ × δ)) → Prop
  | [] => boxes = [] ∧ F = []
  | t :: ts => ∃ b boxes' G G', boxes = b :: boxes' ∧ F = G ++ G' ∧ HoldsAt T m b G t ∧
      HoldsAll T m boxes' G' ts

end

/-- A value owns a tree. -/
def Holds (T : Types w τ δ) (m : Objects (Value τ δ)) (v : Value τ δ) (F : List Span)
    (t : Rose (τ × δ)) : Prop :=
  T.Proper v ∧ ∃ ts, t = .node (v.type, v.data) ts ∧ HoldsAll T m v.boxes F ts

mutual

/-- **Frame.**  A tree stays when its bytes do. -/
theorem HoldsAt.keeps {b : LeakBox τ} {F : List Span} : ∀ {t : Rose (τ × δ)},
    HoldsAt T m b F t → Objects.Keeps T.sizeOf m m' F → HoldsAt T m' b F t
  | .node _ _, ⟨v, G, hread, ha, hF, hall⟩, hk => by
    subst hF
    exact ⟨v, G, Types.read_keeps hread (hk.mono (List.subset_append_left _ _)), ha, rfl,
      hall.keeps (hk.mono (List.subset_append_right _ _))⟩

theorem HoldsAll.keeps {boxes : List (LeakBox τ)} {F : List Span} : ∀ {ts : List (Rose (τ × δ))},
    HoldsAll T m boxes F ts → Objects.Keeps T.sizeOf m m' F → HoldsAll T m' boxes F ts
  | [], h, _ => h
  | _ :: _, ⟨b, boxes', G, G', hboxes, hF, ht, hts⟩, hk => by
    subst hF
    exact ⟨b, boxes', G, G', hboxes, rfl, ht.keeps (hk.mono (List.subset_append_left _ _)),
      hts.keeps (hk.mono (List.subset_append_right _ _))⟩

end

theorem Holds.keeps {t : Rose (τ × δ)} (h : Holds T m v F t)
    (hk : Objects.Keeps T.sizeOf m m' F) : Holds T m' v F t := by
  obtain ⟨hproper, ts, ht, hall⟩ := h
  exact ⟨hproper, ts, ht, hall.keeps hk⟩

/-- A tree at a box is the value there, and the box. -/
theorem holdsAt_iff {t : Rose (τ × δ)} : HoldsAt T m b F t ↔
    ∃ v G, T.read m b = .ok v ∧ F = T.spans b ++ G ∧ Holds T m v G t := by
  cases t with
  | node a ts =>
    constructor
    · rintro ⟨v, G, hread, rfl, hF, hall⟩
      exact ⟨v, G, hread, hF, (Types.read_ok hread).2.2.1, ts, rfl, hall⟩
    · rintro ⟨v, G, hread, hF, -, ts', heq, hall⟩
      obtain ⟨ha, rfl⟩ := Rose.node.inj heq
      exact ⟨v, G, hread, ha, hF, hall⟩

/-! ## Dropping a tree -/

/-- Two parts of a footprint. -/
theorem Types.Separate.append (h : Types.Separate (F ++ G)) :
    Types.Separate F ∧ Types.Separate G ∧ ∀ s ∈ F, ∀ t ∈ G, s.Apart t := by
  obtain ⟨hF, hG, happart⟩ := List.pairwise_append.mp h.apart
  exact ⟨⟨fun s hs => h.pos s (List.mem_append_left _ hs), hF⟩,
    ⟨fun s hs => h.pos s (List.mem_append_right _ hs), hG⟩, happart⟩

omit [DecidableEq τ] in
/-- Dropping one part leaves the other alone. -/
theorem Types.Separate.keeps_erase (h : Types.Separate (F ++ G)) :
    Objects.Keeps T.sizeOf m (m.erase F) G := by
  obtain ⟨hF, hG, hapart⟩ := h.append
  exact Objects.keeps_erase fun s hs =>
    ⟨hG.pos s hs, fun t ht => ⟨hF.pos t ht, (hapart t ht s hs).symm⟩⟩

mutual

/-- **The drop glue drops the tree.** -/
theorem dropInPlace_eq : ∀ (t : Rose (τ × δ)) {fuel : ℕ} {m : Objects (Value τ δ)}
    {b : LeakBox τ} {F : List Span}, HoldsAt T m b F t → Types.Separate F →
    dropInPlace T fuel m b =
      .ok (if t.height ≤ fuel then some (m.erase F, t.preorder) else none)
  | .node a ts, 0, m, b, F, _, _ => by
    rw [if_neg (by simp [height])]
    rfl
  | .node a ts, fuel + 1, m, b, F, ⟨v, G, hread, ha, hF, hall⟩, hsep => by
    subst hF ha
    have hrest : dropBoxes (dropInPlace T fuel) _ _ = _ :=
      dropBoxes_eq ts (hall.keeps hsep.keeps_erase) hsep.append.2.1
    rw [dropInPlace, hread]
    simp only [ok_bind, Types.vacate, hrest]
    by_cases hfuel : heights ts ≤ fuel
    · have hfuel' : (Rose.node (v.type, v.data) ts).height ≤ fuel + 1 := by
        rw [height]
        exact Nat.succ_le_succ hfuel
      simp only [if_pos hfuel, if_pos hfuel', Objects.erase_append]
      rfl
    · have hfuel' : ¬ (Rose.node (v.type, v.data) ts).height ≤ fuel + 1 := by
        rw [height]
        exact fun h => hfuel (Nat.le_of_succ_le_succ h)
      simp only [if_neg hfuel, if_neg hfuel']
      rfl

theorem dropBoxes_eq : ∀ (ts : List (Rose (τ × δ))) {fuel : ℕ} {m : Objects (Value τ δ)}
    {boxes : List (LeakBox τ)} {F : List Span}, HoldsAll T m boxes F ts → Types.Separate F →
    dropBoxes (dropInPlace T fuel) m boxes =
      .ok (if heights ts ≤ fuel then some (m.erase F, preorders ts) else none)
  | [], fuel, m, boxes, F, ⟨hboxes, hF⟩, _ => by
    subst hboxes hF
    rw [heights, if_pos (Nat.zero_le _)]
    rfl
  | t :: ts, fuel, m, boxes, F, ⟨b, boxes', G, G', hboxes, hF, ht, hts⟩, hsep => by
    subst hboxes hF
    have hfirst : dropInPlace T fuel _ _ = _ := dropInPlace_eq t ht hsep.append.1
    have hrest : dropBoxes (dropInPlace T fuel) _ _ = _ :=
      dropBoxes_eq ts (hts.keeps hsep.keeps_erase) hsep.append.2.1
    have hheights : heights (t :: ts) = max t.height (heights ts) := rfl
    rw [dropBoxes, hfirst]
    by_cases hle : t.height ≤ fuel
    · simp only [if_pos hle, ok_bind, hrest]
      by_cases hle' : heights ts ≤ fuel
      · rw [if_pos hle', if_pos (hheights ▸ max_le hle hle'), Objects.erase_append]
        rfl
      · rw [if_neg hle', if_neg fun h => hle' ((le_max_right _ _).trans (hheights ▸ h))]
        rfl
    · simp only [if_neg hle, ok_bind]
      rw [if_neg fun h => hle ((le_max_left _ _).trans (hheights ▸ h))]
      rfl

end

/-- Dropping a value that is not in the memory. -/
theorem dropValue_eq {t : Rose (τ × δ)} {fuel : ℕ} (h : Holds T m v F t)
    (hsep : Types.Separate F) : dropValue T fuel m v =
      .ok (if t.height ≤ fuel + 1 then some (m.erase F, t.preorder) else none) := by
  obtain ⟨-, ts, rfl, hall⟩ := h
  rw [dropValue, dropBoxes_eq ts hall hsep, height]
  by_cases hfuel : heights ts ≤ fuel
  · rw [if_pos hfuel, if_pos (Nat.succ_le_succ hfuel)]
    rfl
  · rw [if_neg hfuel, if_neg fun h => hfuel (Nat.le_of_succ_le_succ h)]
    rfl

/-! ## New places -/

variable {S : Storage w} {c c' : ℕ} {type : τ}

/-- The arena went from one level to another and handed out a place between the two. -/
structure Granted (S : Storage w) (T : Types w τ δ) (c c' : ℕ) (b : LeakBox τ) : Prop where
  valid : T.Valid b
  fresh : ∀ s ∈ T.spans b, S.base + c ≤ s.start ∧ s.stop ≤ S.base + c'
  le : c ≤ c'
  le_len : c' ≤ S.len

omit [DecidableEq τ] in
/-- A place for a value without bytes. -/
theorem granted_zst (hc : c ≤ S.len) (hzero : (T.layout type).size = 0) :
    Granted S T c c ⟨(T.layout type).align, type⟩ where
  valid := ⟨Nat.ne_of_gt (T.layout type).align_pos, dvd_rfl⟩
  fresh := by
    intro s hs
    rw [Types.spans_of_zero hzero] at hs
    exact absurd hs List.not_mem_nil
  le := le_rfl
  le_len := hc

omit [DecidableEq τ] in
/-- A place behind the level. -/
theorem granted_placement (hpos : 0 < (T.layout type).size)
    (hfit : Bump.placement S (T.layout type).toLayout c + (T.layout type).size ≤ S.len) :
    Granted S T c (Bump.placement S (T.layout type).toLayout c + (T.layout type).size)
      ⟨S.base + Bump.placement S (T.layout type).toLayout c, type⟩ where
  valid := ⟨Nat.ne_of_gt (S.nonnull.trans_le (Nat.le_add_right _ _)), Bump.dvd_placement⟩
  fresh := by
    intro s hs
    rw [Types.spans_of_pos hpos] at hs
    rw [List.mem_singleton.mp hs]
    exact ⟨Nat.add_le_add_left Bump.le_placement _, Nat.le_of_eq (Nat.add_assoc _ _ _)⟩
  le := Bump.le_placement.trans (Nat.le_add_right _ _)
  le_len := hfit

omit [DecidableEq τ] in
theorem get_spec (T : Types w τ δ) (hc : c ≤ S.len) (type : τ) :
    (∃ c' a, Bump.BumpView.get S c (T.layout type) = .ok (c', some a) ∧
      Granted S T c c' ⟨a.ptr, type⟩) ∨
    Bump.BumpView.get S c (T.layout type) = .ok (c, none) := by
  rcases Nat.eq_zero_or_pos (T.layout type).size with hzero | hpos
  · exact Or.inl ⟨_, _, Bump.BumpView.get_of_size_eq_zero hzero, granted_zst hc hzero⟩
  · rw [Bump.BumpView.get, if_neg (Nat.ne_of_gt hpos), Bump.tryAlloc_eq hpos hc]
    by_cases hfit : Bump.placement S (T.layout type).toLayout c + (T.layout type).size ≤ S.len
    · rw [if_pos hfit]
      exact Or.inl ⟨_, _, rfl, granted_placement hpos hfit⟩
    · rw [if_neg hfit]
      exact Or.inr rfl

omit [DecidableEq τ] in
theorem getAt_spec (T : Types w τ δ) (hc : c ≤ S.len) (type : τ) {level : Bump.Level}
    (hlevel : level ≤ S.len) :
    (∃ c' a, Bump.BumpView.getAt S c (T.layout type) level = .ok (c', .ok a) ∧
      Granted S T c c' ⟨a.ptr, type⟩) ∨
    ∃ failure, Bump.BumpView.getAt S c (T.layout type) level = .ok (c, .error failure) := by
  rcases Nat.eq_zero_or_pos (T.layout type).size with hzero | hpos
  · by_cases heq : c = level
    · subst heq
      exact Or.inl ⟨_, _, Bump.BumpView.getAt_of_size_eq_zero hzero, granted_zst hc hzero⟩
    · refine Or.inr ⟨.mismatch c, ?_⟩
      rw [Bump.BumpView.getAt, if_pos hzero, if_pos (by exact heq)]
      rfl
  · rw [Bump.BumpView.getAt, if_neg (Nat.ne_of_gt hpos), Bump.tryAllocAt_eq_of_le hpos hlevel]
    by_cases hfit :
        Bump.placement S (T.layout type).toLayout level + (T.layout type).size ≤ S.len
    · rw [if_pos hfit]
      by_cases heq : c = level
      · subst heq
        rw [if_pos rfl]
        exact Or.inl ⟨_, _, rfl, granted_placement hpos hfit⟩
      · rw [if_neg heq]
        exact Or.inr ⟨_, rfl⟩
    · rw [if_neg hfit]
      exact Or.inr ⟨_, rfl⟩

section

variable {σ : Heap τ δ} {t : Rose (τ × δ)} {level : Bump.Level}

/-- A value goes into a box, or it is dropped. -/
theorem leakBox_spec (hc : σ.consumed ≤ S.len) (h : Holds T σ.memory v F t)
    (hsep : Types.Separate F) :
    (∃ c' this, Granted S T σ.consumed c' this ∧ this.type = v.type ∧ ∀ fuel,
      leakBox S T fuel σ v =
        .ok (some (⟨c', T.stored σ.memory this.pointer v⟩, some this, []))) ∨
    ∀ fuel, t.height ≤ fuel → leakBox S T fuel σ v =
      .ok (some (⟨σ.consumed, σ.memory.erase F⟩, none, t.preorder)) := by
  rcases get_spec T hc v.type with ⟨c', a, hget, hgranted⟩ | hget
  · refine Or.inl ⟨c', ⟨a.ptr, v.type⟩, hgranted, rfl, fun fuel => ?_⟩
    rw [leakBox, hget]
    simp only [ok_bind, LeakBox.newFromRawNonNull, Types.write_eq hgranted.valid]
    rfl
  · refine Or.inr fun fuel hfuel => ?_
    rw [leakBox, hget]
    simp only [ok_bind, dropValue_eq h hsep, if_pos (hfuel.trans (Nat.le_succ _))]
    rfl

theorem leakBoxAt_spec (hc : σ.consumed ≤ S.len) (h : Holds T σ.memory v F t)
    (hsep : Types.Separate F) (hlevel : level ≤ S.len) :
    (∃ c' this, Granted S T σ.consumed c' this ∧ this.type = v.type ∧ ∀ fuel,
      leakBoxAt S T fuel σ v level =
        .ok (some (⟨c', T.stored σ.memory this.pointer v⟩, .ok this, []))) ∨
    ∃ failure, ∀ fuel, t.height ≤ fuel → leakBoxAt S T fuel σ v level =
      .ok (some (⟨σ.consumed, σ.memory.erase F⟩, .error failure, t.preorder)) := by
  rcases getAt_spec T hc v.type hlevel with ⟨c', a, hget, hgranted⟩ | ⟨failure, hget⟩
  · refine Or.inl ⟨c', ⟨a.ptr, v.type⟩, hgranted, rfl, fun fuel => ?_⟩
    rw [leakBoxAt, hget]
    simp only [ok_bind, LeakBox.newFromRawNonNull, Types.write_eq hgranted.valid]
    rfl
  · refine Or.inr ⟨failure, fun fuel hfuel => ?_⟩
    rw [leakBoxAt, hget]
    simp only [ok_bind, dropValue_eq h hsep, if_pos (hfuel.trans (Nat.le_succ _))]
    rfl

omit [DecidableEq τ] in
/-- A value is leaked, or it is given back. -/
theorem leak_spec (T : Types w τ δ) (hc : σ.consumed ≤ S.len) (v : Value τ δ) :
    (∃ c' this, Granted S T σ.consumed c' this ∧ this.type = v.type ∧
      leak S T σ v = .ok (⟨c', T.stored σ.memory this.pointer v⟩, .ok this)) ∨
    ∃ failure, leak S T σ v = .ok (σ, .error ⟨v, failure⟩) := by
  rcases get_spec T hc v.type with ⟨c', a, hget, hgranted⟩ | hget
  · refine Or.inl ⟨c', ⟨a.ptr, v.type⟩, hgranted, rfl, ?_⟩
    rw [leak, hget]
    simp only [ok_bind, Types.write_eq hgranted.valid]
    rfl
  · refine Or.inr ⟨.exhausted, ?_⟩
    rw [leak, hget]
    rfl

omit [DecidableEq τ] in
theorem leakAt_spec (T : Types w τ δ) (hc : σ.consumed ≤ S.len) (v : Value τ δ)
    (hlevel : level ≤ S.len) :
    (∃ c' this after, Granted S T σ.consumed c' this ∧ this.type = v.type ∧
      leakAt S T σ v level =
        .ok (⟨c', T.stored σ.memory this.pointer v⟩, .ok (this, after))) ∨
    ∃ failure, leakAt S T σ v level = .ok (σ, .error ⟨v, failure⟩) := by
  rcases getAt_spec T hc v.type hlevel with ⟨c', a, hget, hgranted⟩ | ⟨failure, hget⟩
  · refine Or.inl ⟨c', ⟨a.ptr, v.type⟩, a.level, hgranted, rfl, ?_⟩
    rw [leakAt, hget]
    simp only [ok_bind, Types.write_eq hgranted.valid]
    rfl
  · refine Or.inr ⟨failure, ?_⟩
    rw [leakAt, hget]
    rfl

omit [DecidableEq τ] in
theorem leakUninit_spec (T : Types w τ δ) (hc : σ.consumed ≤ S.len) (type : τ) :
    (∃ c' p, Granted S T σ.consumed c' ⟨p, type⟩ ∧
      leakUninit S T σ type = .ok (⟨c', T.clear σ.memory p type⟩, some ⟨p, type⟩)) ∨
    leakUninit S T σ type = .ok (σ, none) := by
  rcases get_spec T hc type with ⟨c', a, hget, hgranted⟩ | hget
  · refine Or.inl ⟨c', a.ptr, hgranted, ?_⟩
    rw [leakUninit, hget]
    rfl
  · refine Or.inr ?_
    rw [leakUninit, hget]
    rfl

end

end Leaked
end StaticAlloc
