import Mathlib.Data.List.Nodup

/-!
# Lists threaded through a heap

Reading a key of a heap gives a link, to the key after it or to none, and a
value.  `Linked read head l` says that following the links from `head` leads
through exactly the keys of `l`, that the values read there are those of `l`, and
that the links then end.  Being an inductive predicate over the list, it says
that the list is finite; that it is acyclic is a consequence (`Linked.nodup`),
since a key determines everything behind it (`Linked.unique`), and a list that
met a key twice would be as long as its own tail.

A heap that still reads the keys of a list as before links them as before
(`Linked.frame`).

`Threaded read head L` says that a heap is a family of such lists and nothing else:
no key is on two of them, and every key that can be read is on one.  The three ways
to change one list are a list that goes away (`Threaded.clear`), a new key in front
of a list (`Threaded.push`) and a new value at the front (`Threaded.setFront`); each
is a case of `Threaded.replace`.
-/

namespace Toolkit

variable {κ β : Type*}

/-- From `head` on the links lead through the keys of the list, in this order,
and end. -/
inductive Linked (read : κ → Option (Option κ × β)) : Option κ → List (κ × β) → Prop where
  | nil : Linked read none []
  | cons {k : κ} {v : β} {link : Option κ} {l : List (κ × β)} :
      read k = some (link, v) → Linked read link l → Linked read (some k) ((k, v) :: l)

namespace Linked

variable {read read' : κ → Option (Option κ × β)} {head : Option κ} {l l' : List (κ × β)} {k : κ}

theorem of_none (h : Linked read none l) : l = [] := by
  cases h
  rfl

/-- Taking a list apart at its first key. -/
theorem of_some (h : Linked read (some k) l) :
    ∃ v link rest, read k = some (link, v) ∧ l = (k, v) :: rest ∧ Linked read link rest := by
  cases h with
  | cons hread hrest => exact ⟨_, _, _, hread, rfl, hrest⟩

/-- The first key of a list is its head. -/
theorem of_cons {v : β} (h : Linked read head ((k, v) :: l)) :
    head = some k ∧ ∃ link, read k = some (link, v) ∧ Linked read link l := by
  cases h with
  | cons hread hrest => exact ⟨rfl, _, hread, hrest⟩

/-- **A head determines its list.** -/
theorem unique (h : Linked read head l) (h' : Linked read head l') : l = l' := by
  induction h generalizing l' with
  | nil => exact h'.of_none.symm
  | cons hread _ ih =>
    obtain ⟨v, link, rest, hread', rfl, hrest⟩ := h'.of_some
    obtain ⟨rfl, rfl⟩ := Prod.mk.inj (Option.some.inj (hread.symm.trans hread'))
    rw [ih hrest]

/-- Every key of the list is read with its value. -/
theorem read_of_mem {v : β} (h : Linked read head l) (hk : (k, v) ∈ l) :
    ∃ link, read k = some (link, v) := by
  induction h with
  | nil => exact absurd hk List.not_mem_nil
  | cons hread _ ih =>
    rcases List.mem_cons.mp hk with heq | hk
    · obtain ⟨rfl, rfl⟩ := Prod.mk.inj heq
      exact ⟨_, hread⟩
    · exact ih hk

/-- The list from one of its keys on. -/
theorem suffix (h : Linked read head l) (hk : k ∈ l.map Prod.fst) :
    ∃ v rest, Linked read (some k) ((k, v) :: rest) ∧ (k, v) :: rest <:+ l := by
  induction h with
  | nil => exact absurd hk List.not_mem_nil
  | @cons k' v link l hread hrest ih =>
    rcases List.mem_cons.mp hk with rfl | hk
    · exact ⟨v, l, .cons hread hrest, List.suffix_rfl⟩
    · obtain ⟨v', rest, hlinked, hsuffix⟩ := ih hk
      exact ⟨v', rest, hlinked, hsuffix.trans (List.suffix_cons _ _)⟩

/-- **No key is met twice.** -/
theorem nodup (h : Linked read head l) : (l.map Prod.fst).Nodup := by
  induction h with
  | nil => exact List.nodup_nil
  | @cons k v link l hread hrest ih =>
    refine List.nodup_cons.mpr ⟨fun hk => ?_, ih⟩
    obtain ⟨v', rest, hlinked, hsuffix⟩ := hrest.suffix hk
    have hle := hsuffix.length_le
    rw [hlinked.unique (.cons hread hrest), List.length_cons] at hle
    omega

/-- **Frame.**  A heap that still reads the keys of the list as before links them
as before. -/
theorem frame (h : Linked read head l)
    (hkeep : ∀ k v link, (k, v) ∈ l → read k = some (link, v) → read' k = some (link, v)) :
    Linked read' head l := by
  induction h with
  | nil => exact .nil
  | @cons k v link l hread _ ih =>
    refine .cons (hkeep k v link List.mem_cons_self hread) (ih fun k' v' link' hmem => ?_)
    exact hkeep k' v' link' (List.mem_cons_of_mem _ hmem)

/-- A key that is not read is not on the list. -/
theorem not_mem (h : Linked read head l) (hk : read k = none) : k ∉ l.map Prod.fst := by
  intro hmem
  obtain ⟨⟨k, v⟩, hkv, rfl⟩ := List.mem_map.mp hmem
  obtain ⟨link, hread⟩ := h.read_of_mem hkv
  exact absurd (hk.symm.trans hread) (by simp)

end Linked

/-! ## Families of lists -/

variable {ι : Type*}

/-- The heap is the lists of the family, and nothing else. -/
structure Threaded (read : κ → Option (Option κ × β)) (head : ι → Option κ)
    (L : ι → List (κ × β)) : Prop where
  /-- The links from a head lead through its list, and end. -/
  linked : ∀ i, Linked read (head i) (L i)
  /-- A key is on one list. -/
  single : ∀ i j k, k ∈ (L i).map Prod.fst → k ∈ (L j).map Prod.fst → i = j
  /-- A key that is read is on a list. -/
  owned : ∀ k link v, read k = some (link, v) → ∃ i, k ∈ (L i).map Prod.fst

namespace Threaded

variable [DecidableEq ι] {read read' : κ → Option (Option κ × β)} {head head' : ι → Option κ}
  {L : ι → List (κ × β)} {i : ι} {k : κ} {v : β}

/-- **One list is replaced.**  The keys of the new list are on no other list, the
other lists are read as before, and what can be read is on the new list or was on
another one. -/
theorem replace (h : Threaded read head L) {l : List (κ × β)}
    (hhead : ∀ j, j ≠ i → head' j = head j) (hl : Linked read' (head' i) l)
    (hsingle : ∀ j, j ≠ i → ∀ k ∈ l.map Prod.fst, k ∉ (L j).map Prod.fst)
    (hkeep : ∀ j, j ≠ i → ∀ k ∈ (L j).map Prod.fst, read' k = read k)
    (howned : ∀ k link v, read' k = some (link, v) → k ∉ l.map Prod.fst →
      read k = some (link, v) ∧ k ∉ (L i).map Prod.fst) :
    Threaded read' head' (Function.update L i l) where
  linked j := by
    by_cases hj : j = i
    · rw [hj, Function.update_self]
      exact hl
    · rw [hhead j hj, Function.update_of_ne hj]
      exact (h.linked j).frame fun k _ _ hmem hread =>
        (hkeep j hj k (List.mem_map_of_mem hmem)).trans hread
  single j j' k hk hk' := by
    by_cases hj : j = i
    · by_cases hj' : j' = i
      · rw [hj, hj']
      · rw [hj, Function.update_self] at hk
        rw [Function.update_of_ne hj'] at hk'
        exact absurd hk' (hsingle j' hj' k hk)
    · rw [Function.update_of_ne hj] at hk
      by_cases hj' : j' = i
      · rw [hj', Function.update_self] at hk'
        exact absurd hk (hsingle j hj k hk')
      · rw [Function.update_of_ne hj'] at hk'
        exact h.single j j' k hk hk'
  owned k link v hread := by
    by_cases hk : k ∈ l.map Prod.fst
    · exact ⟨i, by rwa [Function.update_self]⟩
    · obtain ⟨hread, hki⟩ := howned k link v hread hk
      obtain ⟨j, hkj⟩ := h.owned k link v hread
      have hj : j ≠ i := by
        rintro rfl
        exact hki hkj
      exact ⟨j, by rwa [Function.update_of_ne hj]⟩

/-- A list goes away, and its keys with it. -/
theorem clear (h : Threaded read head L) (hi : head' i = none)
    (hhead : ∀ j, j ≠ i → head' j = head j)
    (hnone : ∀ k ∈ (L i).map Prod.fst, read' k = none)
    (hkeep : ∀ k, k ∉ (L i).map Prod.fst → read' k = read k) :
    Threaded read' head' (Function.update L i []) := by
  refine h.replace hhead (hi ▸ .nil) (fun _ _ k hk => absurd hk List.not_mem_nil)
    (fun j hj k hk => hkeep k fun hki => hj (h.single j i k hk hki)) fun k link v hread _ => ?_
  have hk : k ∉ (L i).map Prod.fst := fun hk =>
    absurd ((hnone k hk).symm.trans hread) (by simp)
  exact ⟨(hkeep k hk).symm.trans hread, hk⟩

/-- A new key in front of a list. -/
theorem push (h : Threaded read head L) (hnew : read k = none) (hi : head' i = some k)
    (hhead : ∀ j, j ≠ i → head' j = head j) (hread : read' k = some (head i, v))
    (hkeep : ∀ k', k' ≠ k → read' k' = read k') :
    Threaded read' head' (Function.update L i ((k, v) :: L i)) := by
  have hk : ∀ j, k ∉ (L j).map Prod.fst := fun j => (h.linked j).not_mem hnew
  have hframe : ∀ j, ∀ k' ∈ (L j).map Prod.fst, read' k' = read k' := fun j k' hk' =>
    hkeep k' fun heq => hk j (heq ▸ hk')
  refine h.replace hhead ?_ (fun j hj k' hk' hkj => ?_) (fun j _ => hframe j)
    fun k' link v' hread' hk' => ?_
  · rw [hi]
    exact .cons hread ((h.linked i).frame fun k' _ _ hmem hread' =>
      (hframe i k' (List.mem_map_of_mem hmem)).trans hread')
  · rcases List.mem_cons.mp hk' with rfl | hk'
    · exact hk j hkj
    · exact hj (h.single j i k' hkj hk')
  · obtain ⟨hne, hki⟩ := not_or.mp (mt List.mem_cons.mpr hk')
    exact ⟨(hkeep k' hne).symm.trans hread', hki⟩

/-- Another value at the front of a list. -/
theorem setFront (h : Threaded read head L) {l : List (κ × β)} {link : Option κ} {v' : β}
    (hl : L i = (k, v) :: l) (hread : read k = some (link, v))
    (hread' : read' k = some (link, v')) (hkeep : ∀ k', k' ≠ k → read' k' = read k') :
    Threaded read' head (Function.update L i ((k, v') :: l)) := by
  have hlinked := h.linked i
  rw [hl] at hlinked
  have hk : k ∉ l.map Prod.fst := (List.nodup_cons.mp hlinked.nodup).1
  have hki : k ∈ (L i).map Prod.fst := by
    rw [hl]
    exact List.mem_cons_self
  obtain ⟨hhead, link', hlink, hrest⟩ := hlinked.of_cons
  obtain ⟨rfl, -⟩ := Prod.mk.inj (Option.some.inj (hlink.symm.trans hread))
  refine h.replace (fun _ _ => rfl) ?_ (fun j hj k' hk' hkj => ?_) (fun j hj k' hk' => ?_)
    fun k' link v' hread' hk' => ?_
  · rw [hhead]
    exact .cons hread' (hrest.frame fun k' _ _ hmem hread' =>
      (hkeep k' fun heq => hk (heq ▸ List.mem_map_of_mem hmem)).trans hread')
  · exact hj (h.single j i k' hkj (by rw [hl]; exact hk'))
  · exact hkeep k' fun heq => hj (h.single j i k' hk' (heq ▸ hki))
  · have hne : k' ≠ k := fun heq => hk' (heq ▸ List.mem_cons_self)
    exact ⟨(hkeep k' hne).symm.trans hread', by rw [hl]; exact hk'⟩

end Threaded

end Toolkit
