import Mathlib.Data.List.Perm.Subperm
import X86Asm.Arena

/-!
# An arena as a map

What an arena holds is told by `Arena.get?` alone. `Arena.Valid` ties the free list to the empty
slots, and every operation keeps it:

* `insert_spec` — a new id had no value before, and only its value changes;
* `get?_erase` — the id that is erased has no value afterwards, and only its value changes;
* `get?_modify` — only the value of the id that is modified changes, and it does not come or go.

Ids that have values at the same time lie in different slots (`eq_of_index_eq`), so there are at
most `Arena.capacity` of them (`length_le_capacity`).

Which ids were issued is read off the generations of the slots: `Arena.Used` holds of an id from
its insertion on (`Fills.used`, `Frees.used`), and of no id that an insertion issues
(`Fills.not_used`).
-/

namespace X86Asm.Arena

variable {α : Type} {a a' : Arena α} {id k : NodeId} {v : α}

/-- The free list names the empty slots, each of them once, and slots have numbers of 32 bits. -/
structure Valid (a : Arena α) : Prop where
  capacity_le : a.slots.size ≤ UInt32.size
  free_nodup : a.free.Nodup
  mem_free_iff : ∀ i : UInt32, i ∈ a.free ↔ ∃ g, a.slots[i.toNat]? = some ⟨g, none⟩
  size_add_free : a.size + a.free.length = a.slots.size

/-- An id has a value exactly if its slot holds the value in the generation of the id. -/
theorem get?_eq_some_iff :
    a.get? id = some v ↔ a.slots[id.index.toNat]? = some ⟨id.generation, some v⟩ := by
  unfold get? slot?
  cases a.slots[id.index.toNat]? with
  | none => simp
  | some slot =>
    obtain ⟨generation, value⟩ := slot
    by_cases hg : generation = id.generation <;> simp [Option.filter, hg]

/-- The arena contains an id exactly if the id has a value. -/
theorem contains_eq_true_iff : a.contains id = true ↔ ∃ v, a.get? id = some v := by
  rw [contains, Option.isSome_iff_exists]

/-- Two ids of one slot that both have a value are the same. -/
theorem eq_of_index_eq {w : α} (hid : a.get? id = some v) (hk : a.get? k = some w)
    (h : id.index = k.index) : id = k := by
  rw [get?_eq_some_iff] at hid hk
  rw [h, hk] at hid
  obtain ⟨index, generation⟩ := id
  obtain ⟨index', generation'⟩ := k
  simp_all

/-- An id that has a value lies in one of the slots. -/
theorem index_lt_of_get? (h : a.get? id = some v) : id.index.toNat < a.capacity := by
  rw [get?_eq_some_iff] at h
  exact (Array.getElem?_eq_some_iff.mp h).1

/-- Different slot numbers stay different as natural numbers. -/
theorem nodup_toNat {indices : List UInt32} (hn : indices.Nodup) :
    (indices.map UInt32.toNat).Nodup := by
  rw [List.Nodup, List.pairwise_map]
  exact hn.imp fun hne heq => hne (UInt32.toNat_inj.mp heq)

/-- Different slot numbers below a bound are at most as many as the bound says. -/
theorem length_le_of_forall_lt {indices : List UInt32} {n : Nat} (hn : indices.Nodup)
    (h : ∀ i ∈ indices, i.toNat < n) : indices.length ≤ n := by
  have hnodup := nodup_toNat hn
  have hsub : indices.map UInt32.toNat ⊆ List.range n := by
    intro i hi
    obtain ⟨j, hj, rfl⟩ := List.mem_map.mp hi
    exact List.mem_range.mpr (h j hj)
  simpa using (List.subperm_of_subset hnodup hsub).length_le

/-- Different ids that have values lie in different slots. -/
theorem nodup_index {ids : List NodeId} (hn : ids.Nodup)
    (h : ∀ id ∈ ids, ∃ v, a.get? id = some v) : (ids.map (·.index)).Nodup := by
  rw [List.Nodup, List.pairwise_map]
  refine List.Pairwise.imp_of_mem ?_ hn
  intro x y hx hy hne heq
  obtain ⟨v, hv⟩ := h x hx
  obtain ⟨w, hw⟩ := h y hy
  exact hne (eq_of_index_eq hv hw heq)

/-- Different ids that have values are at most as many as there are slots. -/
theorem length_le_capacity {ids : List NodeId} (hn : ids.Nodup)
    (h : ∀ id ∈ ids, ∃ v, a.get? id = some v) : ids.length ≤ a.capacity := by
  have hindex := nodup_index hn h
  have hlt : ∀ i ∈ ids.map (·.index), i.toNat < a.capacity := by
    intro i hi
    obtain ⟨id, hid, rfl⟩ := List.mem_map.mp hi
    obtain ⟨v, hv⟩ := h id hid
    exact index_lt_of_get? hv
  simpa using length_le_of_forall_lt hindex hlt

/-- The size is the number of ids that have values: their slots and the free ones are all slots. -/
theorem Valid.size_eq (h : a.Valid) {ids : List NodeId} (hn : ids.Nodup)
    (hlive : ∀ id, id ∈ ids ↔ ∃ v, a.get? id = some v) : a.size = ids.length := by
  have hslots : ((ids.map (·.index) ++ a.free).map UInt32.toNat).Perm
      (List.range a.slots.size) := by
    refine (List.perm_ext_iff_of_nodup ?_ List.nodup_range).mpr fun i => ?_
    · refine nodup_toNat (List.nodup_append.mpr
        ⟨nodup_index hn fun id hid => (hlive id).mp hid, h.free_nodup, ?_⟩)
      rintro index hlisted index' hfree rfl
      -- a slot with a value is not free
      obtain ⟨id, hid, rfl⟩ := List.mem_map.mp hlisted
      obtain ⟨v, hv⟩ := (hlive id).mp hid
      obtain ⟨g, hg⟩ := (h.mem_free_iff _).mp hfree
      rw [get?_eq_some_iff, hg] at hv
      cases hv
    · rw [List.mem_range, List.mem_map]
      constructor
      · rintro ⟨index, hindex, rfl⟩
        rcases List.mem_append.mp hindex with hindex | hfree
        · obtain ⟨id, hid, rfl⟩ := List.mem_map.mp hindex
          obtain ⟨v, hv⟩ := (hlive id).mp hid
          exact index_lt_of_get? hv
        · obtain ⟨g, hg⟩ := (h.mem_free_iff _).mp hfree
          exact (Array.getElem?_eq_some_iff.mp hg).1
      · intro hi
        have hof : (UInt32.ofNat i).toNat = i :=
          UInt32.toNat_ofNat_of_lt' (Nat.lt_of_lt_of_le hi h.capacity_le)
        refine ⟨UInt32.ofNat i, List.mem_append.mpr ?_, hof⟩
        obtain ⟨⟨g, value⟩, hslot⟩ : ∃ slot, a.slots[i]? = some slot :=
          ⟨_, Array.getElem?_eq_getElem hi⟩
        cases value with
        | none => exact .inr ((h.mem_free_iff _).mpr ⟨g, hof.symm ▸ hslot⟩)
        | some v =>
          refine .inl (List.mem_map.mpr ⟨⟨UInt32.ofNat i, g⟩, (hlive _).mpr ⟨v, ?_⟩, rfl⟩)
          exact get?_eq_some_iff.mpr (hof.symm ▸ hslot)
  have hlength := hslots.length_eq
  have hsize := h.size_add_free
  rw [List.length_map, List.length_append, List.length_map, List.length_range] at hlength
  omega

/-! ## The empty arena -/

/-- The empty arena has no slots, and so nothing to keep. -/
theorem valid_empty : (∅ : Arena α).Valid where
  capacity_le := Nat.zero_le _
  free_nodup := List.nodup_nil
  mem_free_iff i := by simp [EmptyCollection.emptyCollection, empty]
  size_add_free := rfl

/-- No id has a value in the empty arena. -/
@[simp] theorem get?_empty : (∅ : Arena α).get? id = none := by
  simp [EmptyCollection.emptyCollection, empty, get?, slot?]

/-! ## Changing a value -/

/-- Modifying changes the value in the slot of the id, if the id has one, and no other slot. -/
theorem slots_modify (a : Arena α) (id : NodeId) (f : α → α) (i : Nat) :
    (a.modify id f).slots[i]? =
      if a.contains id ∧ id.index.toNat = i then
        a.slots[i]?.map fun s => { s with value := s.value.map f }
      else a.slots[i]? := by
  unfold modify
  by_cases hc : a.contains id = true
  · rw [if_pos hc, Array.getElem?_modify]
    by_cases hi : id.index.toNat = i <;> simp [hc, hi]
  · simp [hc]

/-- Only the value of the id that is modified changes, and it does not come or go. -/
theorem get?_modify (a : Arena α) (id k : NodeId) (f : α → α) :
    (a.modify id f).get? k = if k = id then (a.get? id).map f else a.get? k := by
  apply Option.ext
  intro w
  rw [get?_eq_some_iff, slots_modify]
  by_cases hk : k = id
  · subst hk
    rw [if_pos rfl]
    by_cases hc : a.contains k = true
    · obtain ⟨v, hv⟩ := contains_eq_true_iff.mp hc
      simp [hc, hv, get?_eq_some_iff.mp hv]
    · have hn : a.get? k = none := by simpa [contains] using hc
      rw [if_neg (by simp [hc]), ← get?_eq_some_iff]
      simp [hn]
  · rw [if_neg hk]
    by_cases hc : a.contains id ∧ id.index.toNat = k.index.toNat
    · -- another generation of the slot that changes: neither arena has it
      obtain ⟨v, hv⟩ := contains_eq_true_iff.mp hc.1
      have hindex : k.index = id.index := UInt32.toNat_inj.mp hc.2.symm
      rw [if_pos hc, get?_eq_some_iff]
      rw [get?_eq_some_iff, ← hindex] at hv
      have hg : id.generation ≠ k.generation := by
        intro hg
        obtain ⟨index, generation⟩ := id
        obtain ⟨index', generation'⟩ := k
        simp_all
      simp [hv, hg]
    · rw [if_neg hc, get?_eq_some_iff]

/-- Modifying frees no slot and takes none. -/
@[simp] theorem free_modify (a : Arena α) (id : NodeId) (f : α → α) :
    (a.modify id f).free = a.free := by
  unfold modify
  split <;> rfl

/-- Modifying keeps the free list in step with the slots. -/
theorem Valid.modify (h : a.Valid) (id : NodeId) (f : α → α) : (a.modify id f).Valid := by
  have hsize : (a.modify id f).slots.size = a.slots.size := by
    unfold Arena.modify
    split <;> simp
  have hcount : (a.modify id f).size = a.size := by
    unfold Arena.modify
    split <;> rfl
  refine ⟨by rw [hsize]; exact h.capacity_le, by rw [free_modify]; exact h.free_nodup, ?_, ?_⟩
  · intro i
    rw [free_modify, h.mem_free_iff, slots_modify]
    by_cases hc : a.contains id ∧ id.index.toNat = i.toNat
    · rw [if_pos hc]
      cases a.slots[i.toNat]? with
      | none => simp
      | some slot => cases slot; simp
    · rw [if_neg hc]
  · rw [hsize, free_modify, hcount]
    exact h.size_add_free

/-! ## Insertion -/

/-- Insertion takes an empty slot, or a new one behind the others. -/
theorem insert_cases (h : a.Valid) (hi : a.insert v = .ok (id, a')) :
    (∃ free, a.free = id.index :: free ∧ a.slots[id.index.toNat]? = some ⟨id.generation, none⟩ ∧
      a' = { slots := a.slots.modify id.index.toNat fun s => { s with value := some v }
             free, size := a.size + 1 }) ∨
    (a.free = [] ∧ id.index.toNat = a.slots.size ∧ id.generation = 0 ∧
      a.slots.size < UInt32.size ∧
      a' = { a with slots := a.slots.push ⟨0, some v⟩, size := a.size + 1 }) := by
  unfold insert at hi
  split at hi
  · rename_i index free hfree
    obtain ⟨g, hg⟩ := (h.mem_free_iff index).mp (by simp [hfree])
    simp only [hg, Except.ok.injEq, Prod.mk.injEq] at hi
    obtain ⟨rfl, rfl⟩ := hi
    exact .inl ⟨free, hfree, by simpa using hg, rfl⟩
  · rename_i hfree
    split at hi
    · rename_i hlt
      simp only [Except.ok.injEq, Prod.mk.injEq] at hi
      obtain ⟨rfl, rfl⟩ := hi
      refine .inr ⟨hfree, ?_, rfl, hlt, rfl⟩
      exact UInt32.toNat_ofNat_of_lt' hlt
    · cases hi

/-- Insertion is refused only for want of a slot. -/
theorem insert_eq_error {e : Error} (hi : a.insert v = .error e) :
    e = .handlesExhausted "nodes" ∧ a.free = [] := by
  unfold insert at hi
  split at hi
  · cases hi
  · rename_i hfree
    split at hi
    · cases hi
    · cases hi
      exact ⟨rfl, hfree⟩

/-- There is room for a value if a slot is free. -/
theorem exists_insert (v : α) (h : a.free ≠ []) : ∃ r, a.insert v = .ok r := by
  cases hi : a.insert v with
  | error e => exact absurd (insert_eq_error hi).2 h
  | ok r => exact ⟨r, rfl⟩

/-- Insertion gives its value to an id that had none and leaves the values of all others. -/
theorem insert_spec (h : a.Valid) (hi : a.insert v = .ok (id, a')) :
    a.get? id = none ∧ ∀ k, a'.get? k = if k = id then some v else a.get? k := by
  obtain ⟨free, hfree, hslot, rfl⟩ | ⟨hfree, hindex, hgen, hlt, rfl⟩ := insert_cases h hi
  · have hnone : a.get? id = none := by
      rw [Option.eq_none_iff_forall_ne_some]
      intro w hw
      rw [get?_eq_some_iff, hslot] at hw
      cases hw
    refine ⟨hnone, fun k => ?_⟩
    apply Option.ext
    intro w
    rw [get?_eq_some_iff, Array.getElem?_modify]
    by_cases hk : k = id
    · subst hk
      simp [hslot]
    · rw [if_neg hk, get?_eq_some_iff]
      by_cases hi : id.index.toNat = k.index.toNat
      · -- a handle of the same slot that is not the new one is of an older generation
        have hg : id.generation ≠ k.generation := by
          intro hg
          have := UInt32.toNat_inj.mp hi
          obtain ⟨index, generation⟩ := id
          obtain ⟨index', generation'⟩ := k
          simp_all
        rw [if_pos hi, ← hi, hslot]
        simp [hg]
      · rw [if_neg hi]
  · have hnone : a.get? id = none := by
      rw [Option.eq_none_iff_forall_ne_some]
      intro w hw
      rw [get?_eq_some_iff, hindex] at hw
      simp at hw
    refine ⟨hnone, fun k => ?_⟩
    apply Option.ext
    intro w
    rw [get?_eq_some_iff, Array.getElem?_push]
    by_cases hk : k = id
    · subst hk
      simp [hindex, hgen]
    · rw [if_neg hk, get?_eq_some_iff]
      by_cases hi : k.index.toNat = a.slots.size
      · -- a new slot starts with generation zero
        have hg : k.generation ≠ 0 := by
          intro hg
          have := UInt32.toNat_inj.mp (hi.trans hindex.symm)
          obtain ⟨index, generation⟩ := id
          obtain ⟨index', generation'⟩ := k
          simp_all
        simp [hi, hg.symm]
      · rw [if_neg hi]

/-- An insertion keeps the free list in step with the slots. -/
theorem Valid.insert (h : a.Valid) (hi : a.insert v = .ok (id, a')) : a'.Valid := by
  obtain ⟨free, hfree, hslot, rfl⟩ | ⟨hfree, hindex, hgen, hlt, rfl⟩ := insert_cases h hi
  · -- a free slot is used again and leaves the free list
    have hnodup := h.free_nodup
    rw [hfree, List.nodup_cons] at hnodup
    refine ⟨by simpa using h.capacity_le, hnodup.2, fun i => ?_, ?_⟩
    · have hmem := h.mem_free_iff i
      rw [hfree, List.mem_cons] at hmem
      rw [Array.getElem?_modify]
      by_cases hi : id.index.toNat = i.toNat
      · have : id.index = i := UInt32.toNat_inj.mp hi
        subst this
        simp [hslot, hnodup.1]
      · have : i ≠ id.index := fun he => hi (by rw [he])
        rw [if_neg hi, ← hmem]
        simp [this]
    · have := h.size_add_free
      simp only [hfree, List.length_cons] at this
      simp only [Array.size_modify]
      omega
  · -- a new slot has never been free
    refine ⟨by simpa using Nat.succ_le_of_lt hlt, h.free_nodup, fun i => ?_, ?_⟩
    · show i ∈ a.free ↔ _
      rw [h.mem_free_iff, Array.getElem?_push]
      by_cases hi : i.toNat = a.slots.size
      · simp [hi]
      · rw [if_neg hi]
    · have := h.size_add_free
      simp only [Array.size_push]
      omega

/-! ## Removal -/

/-- What is erased had a value, and its slot is freed in the next generation. -/
theorem erase_cases (he : a.erase id = some (v, a')) :
    a.get? id = some v ∧
      a' = { slots := a.slots.modify id.index.toNat fun s => ⟨s.generation + 1, none⟩
             free := id.index :: a.free, size := a.size - 1 } := by
  unfold erase at he
  obtain ⟨w, hw, heq⟩ := Option.map_eq_some_iff.mp he
  simp only [Prod.mk.injEq] at heq
  obtain ⟨rfl, rfl⟩ := heq
  exact ⟨hw, rfl⟩

/-- Nothing is erased exactly if the id has no value. -/
theorem erase_eq_none_iff : a.erase id = none ↔ a.get? id = none := by
  simp [erase]

/-- Removal takes the value of one id and leaves the values of all others. -/
theorem get?_erase (he : a.erase id = some (v, a')) (k : NodeId) :
    a'.get? k = if k = id then none else a.get? k := by
  obtain ⟨hid, rfl⟩ := erase_cases he
  rw [get?_eq_some_iff] at hid
  apply Option.ext
  intro w
  rw [get?_eq_some_iff, Array.getElem?_modify]
  by_cases hi : id.index.toNat = k.index.toNat
  · rw [if_pos hi, ← hi, hid]
    by_cases hk : k = id
    · simp [hk]
    · -- the slot is empty now, and it had another generation before
      rw [if_neg hk, get?_eq_some_iff, ← hi, hid]
      have hg : id.generation ≠ k.generation := by
        intro hg
        have := UInt32.toNat_inj.mp hi
        obtain ⟨index, generation⟩ := id
        obtain ⟨index', generation'⟩ := k
        simp_all
      simp [hg]
  · have hk : k ≠ id := fun h => hi (by rw [h])
    rw [if_neg hi, if_neg hk, get?_eq_some_iff]

/-- Erasing keeps the free list in step with the slots. -/
theorem Valid.erase (h : a.Valid) (he : a.erase id = some (v, a')) : a'.Valid := by
  obtain ⟨hid, rfl⟩ := erase_cases he
  have hslot := get?_eq_some_iff.mp hid
  have hfresh : id.index ∉ a.free := by
    rw [h.mem_free_iff, hslot]
    simp
  have hlt := index_lt_of_get? hid
  refine ⟨by simpa using h.capacity_le, List.nodup_cons.mpr ⟨hfresh, h.free_nodup⟩, fun i => ?_, ?_⟩
  · rw [List.mem_cons, h.mem_free_iff, Array.getElem?_modify]
    by_cases hi : id.index.toNat = i.toNat
    · have : id.index = i := UInt32.toNat_inj.mp hi
      subst this
      simp [hslot]
    · have : i ≠ id.index := fun he => hi (by rw [he])
      simp [hi, this]
  · -- the slot that is freed is none of the free ones, so there was a value to take
    have hsize := h.size_add_free
    have hlen : (id.index :: a.free).length ≤ a.slots.size := by
      refine length_le_of_forall_lt (List.nodup_cons.mpr ⟨hfresh, h.free_nodup⟩) fun i hi => ?_
      rcases List.mem_cons.mp hi with rfl | hi
      · exact hlt
      · obtain ⟨g, hg⟩ := (h.mem_free_iff i).mp hi
        exact (Array.getElem?_eq_some_iff.mp hg).1
    simp only [List.length_cons] at hlen
    simp only [Array.size_modify, List.length_cons]
    omega

/-! ## The generations of slots -/

/-- The generation of a slot, and whether the slot has a value. -/
def status? (a : Arena α) (i : Nat) : Option (UInt32 × Bool) :=
  a.slots[i]?.map fun s => (s.generation, s.value.isSome)

/-- An id has a value exactly if its slot is taken in the generation of the id. -/
theorem contains_iff_status? :
    a.contains id = true ↔ a.status? id.index.toNat = some (id.generation, true) := by
  rw [contains_eq_true_iff, status?]
  constructor
  · rintro ⟨v, hv⟩
    rw [get?_eq_some_iff.mp hv]
    rfl
  · intro h
    obtain ⟨⟨generation, value⟩, hslot, heq⟩ := Option.map_eq_some_iff.mp h
    obtain ⟨rfl, hvalue⟩ := Prod.mk.inj heq
    obtain ⟨v, rfl⟩ := Option.isSome_iff_exists.mp hvalue
    exact ⟨v, get?_eq_some_iff.mpr hslot⟩

/-- An arena that does not have the first slot has none. -/
theorem capacity_eq_zero (h : a.status? 0 = none) : a.capacity = 0 := by
  rw [status?, Option.map_eq_none_iff, Array.getElem?_eq_none_iff] at h
  exact Nat.le_zero.mp h

/-- The empty arena has no slots. -/
@[simp] theorem status?_empty (i : Nat) : (∅ : Arena α).status? i = none := by
  simp [EmptyCollection.emptyCollection, empty, status?]

/-- Modifying changes neither which slots are taken nor their generations. -/
@[simp] theorem status?_modify (a : Arena α) (id : NodeId) (f : α → α) (i : Nat) :
    (a.modify id f).status? i = a.status? i := by
  rw [status?, slots_modify]
  split
  · rw [status?, Option.map_map]
    exact congrArg (Option.map · _) (funext fun s => by simp)
  · rfl

/-- An id is new in its slot: the slot is free and of the same generation, or follows the others. -/
theorem status?_insert (h : a.Valid) (hi : a.insert v = .ok (id, a')) :
    (a.status? id.index.toNat = some (id.generation, false) ∨
      (a.status? id.index.toNat = none ∧ id.index.toNat = a.capacity ∧ id.generation = 0)) ∧
      ∀ i, a'.status? i =
        if id.index.toNat = i then some (id.generation, true) else a.status? i := by
  obtain ⟨free, -, hslot, rfl⟩ | ⟨-, hindex, hgen, -, rfl⟩ := insert_cases h hi
  · refine ⟨.inl (by rw [status?, hslot]; rfl), fun i => ?_⟩
    simp only [status?, Array.getElem?_modify]
    split
    · subst i
      rw [hslot]
      rfl
    · rfl
  · refine ⟨.inr ⟨by simp [status?, hindex], hindex, hgen⟩, fun i => ?_⟩
    simp only [status?, Array.getElem?_push, hindex, hgen, eq_comm (a := i)]
    split <;> rfl

/-- Removal moves a slot on to the next generation. -/
theorem status?_erase (he : a.erase id = some (v, a')) :
    a.status? id.index.toNat = some (id.generation, true) ∧
      ∀ i, a'.status? i =
        if id.index.toNat = i then some (id.generation + 1, false) else a.status? i := by
  obtain ⟨hid, rfl⟩ := erase_cases he
  have hslot := get?_eq_some_iff.mp hid
  refine ⟨by rw [status?, hslot]; rfl, fun i => ?_⟩
  simp only [status?, Array.getElem?_modify]
  split
  · subst i
    rw [hslot]
    rfl
  · rfl

/-! ## Ids that were used -/

/-- The id has a value, or its slot has moved on to a later generation. -/
def Used (a : Arena α) (id : NodeId) : Prop :=
  ∃ g occupied, a.status? id.index.toNat = some (g, occupied) ∧
    (id.generation < g ∨ id.generation = g ∧ occupied = true)

/-- No slot was freed more often than that. -/
def FreedAtMost (a : Arena α) (count : Nat) : Prop :=
  ∀ i g occupied, a.status? i = some (g, occupied) → g.toNat ≤ count

/-- A value went into the slot of an id. -/
structure Fills (a a' : Arena α) (id : NodeId) : Prop where
  before : a.status? id.index.toNat = some (id.generation, false) ∨
    (a.status? id.index.toNat = none ∧ id.index.toNat = a.capacity ∧ id.generation = 0)
  after : ∀ i, a'.status? i =
    if id.index.toNat = i then some (id.generation, true) else a.status? i

/-- The value of an id left its slot, which moved on to the next generation. -/
structure Frees (a a' : Arena α) (id : NodeId) : Prop where
  before : a.status? id.index.toNat = some (id.generation, true)
  after : ∀ i, a'.status? i =
    if id.index.toNat = i then some (id.generation + 1, false) else a.status? i

/-- An insertion takes the slot of the id that it returns. -/
theorem fills_insert (h : a.Valid) (hi : a.insert v = .ok (id, a')) : a.Fills a' id :=
  ⟨(status?_insert h hi).1, (status?_insert h hi).2⟩

/-- Erasing frees the slot of the id. -/
theorem frees_erase (he : a.erase id = some (v, a')) : a.Frees a' id :=
  ⟨(status?_erase he).1, (status?_erase he).2⟩

/-- An id that has a value has been used. -/
theorem used_of_contains (h : a.contains id = true) : a.Used id :=
  ⟨_, _, contains_iff_status?.mp h, .inr ⟨rfl, rfl⟩⟩

/-- Which ids were used depends on the generations of the slots only. -/
theorem used_congr (h : ∀ i, a'.status? i = a.status? i) : a'.Used id ↔ a.Used id := by
  unfold Used
  rw [h]

/-- In the empty arena no slot was ever freed. -/
theorem freedAtMost_empty : (∅ : Arena α).FreedAtMost 0 := by
  intro i g occupied hg
  rw [status?_empty] at hg
  cases hg

/-- The id of a slot that was taken has a value. -/
theorem Fills.contains (h : a.Fills a' id) : a'.contains id = true := by
  rw [contains_iff_status?, h.after, if_pos rfl]

/-- An id that is issued was not used before: its slot was free, or not there. -/
theorem Fills.not_used (h : a.Fills a' id) : ¬ a.Used id := by
  rintro ⟨g, occupied, hstatus, hused⟩
  rcases h.before with hold | ⟨hold, -, -⟩
  · obtain ⟨rfl, rfl⟩ := Prod.mk.inj (Option.some.inj (hold.symm.trans hstatus))
    rcases hused with hlt | ⟨-, hoccupied⟩
    · exact absurd hlt (UInt32.lt_irrefl _)
    · cases hoccupied
  · cases hold.symm.trans hstatus

/-- What was used stays so when a value goes in. -/
theorem Fills.used (h : a.Fills a' id) (hk : a.Used k) : a'.Used k := by
  obtain ⟨g, occupied, hstatus, hused⟩ := hk
  by_cases hindex : id.index.toNat = k.index.toNat
  · -- the slot was free, so it had moved on before
    refine ⟨_, _, by rw [h.after, if_pos hindex], .inl ?_⟩
    have hold := h.before
    rw [hindex, hstatus] at hold
    rcases hold with hold | ⟨hold, -, -⟩
    · obtain ⟨rfl, rfl⟩ := Prod.mk.inj (Option.some.inj hold)
      exact hused.resolve_right fun hc => by cases hc.2
    · cases hold
  · exact ⟨g, occupied, by rw [h.after, if_neg hindex, hstatus], hused⟩

/-- What was used stays so when a value is taken out, unless the generations of the slot start
over. -/
theorem Frees.used (h : a.Frees a' id) (hwrap : id.generation.toNat + 1 < UInt32.size)
    (hk : a.Used k) : a'.Used k := by
  obtain ⟨g, occupied, hstatus, hused⟩ := hk
  by_cases hindex : id.index.toNat = k.index.toNat
  · refine ⟨_, _, by rw [h.after, if_pos hindex], .inl ?_⟩
    have hold := h.before
    rw [hindex, hstatus] at hold
    obtain ⟨rfl, rfl⟩ := Prod.mk.inj (Option.some.inj hold)
    have hle : k.generation.toNat ≤ id.generation.toNat := by
      rcases hused with hlt | ⟨heq, -⟩
      · exact Nat.le_of_lt (UInt32.lt_iff_toNat_lt.mp hlt)
      · exact Nat.le_of_eq (congrArg UInt32.toNat heq)
    have hnext : (id.generation + 1).toNat = id.generation.toNat + 1 := by
      rw [UInt32.toNat_add, UInt32.toNat_one]
      exact Nat.mod_eq_of_lt hwrap
    rw [UInt32.lt_iff_toNat_lt, hnext]
    omega
  · exact ⟨g, occupied, by rw [h.after, if_neg hindex, hstatus], hused⟩

/-- Taking a slot frees none. -/
theorem Fills.freedAtMost {count : Nat} (h : a.Fills a' id) (hcount : a.FreedAtMost count) :
    a'.FreedAtMost count := by
  intro i g occupied hg
  rw [h.after] at hg
  split at hg
  · obtain ⟨rfl, rfl⟩ := Prod.mk.inj (Option.some.inj hg)
    rcases h.before with hold | ⟨-, -, hzero⟩
    · exact hcount _ _ _ hold
    · rw [hzero]
      exact Nat.zero_le _
  · exact hcount _ _ _ hg

/-- Freeing a slot adds one to the slots that were freed. -/
theorem Frees.freedAtMost {count : Nat} (h : a.Frees a' id) (hcount : a.FreedAtMost count) :
    a'.FreedAtMost (count + 1) := by
  intro i g occupied hg
  rw [h.after] at hg
  split at hg
  · obtain ⟨rfl, rfl⟩ := Prod.mk.inj (Option.some.inj hg)
    have hle := hcount _ _ _ h.before
    rw [UInt32.toNat_add, UInt32.toNat_one]
    exact Nat.le_trans (Nat.mod_le _ _) (Nat.succ_le_succ hle)
  · exact Nat.le_succ_of_le (hcount _ _ _ hg)

end X86Asm.Arena
