import Mathlib.Data.Finset.Card
import X86Asm.NameTable

/-!
# Name tables find every name under one number

A name table keeps the names twice, by number and by name. In a valid table the two agree: a name
stands in one place, and is found under the number of that place (`NameTable.Valid`). Interning
keeps a table valid, and what it does is said once, in `NameTable.intern_cases`.

Numbers have 32 bits, so the place of a name and its number are the same up to 4294967296 names.
Beyond that the first number is given out again, and the number of a name no longer leads back to it
(`Valid.exact_iff`).
-/

namespace X86Asm.NameTable

variable {t : NameTable} {name other : String} {id : NameId} {i : Nat}

/-! ## Valid tables -/

/-- Every name stands in one place and is found under the number of that place. -/
structure Valid (t : NameTable) : Prop where
  nodup : t.names.toList.Nodup
  find?_of_getElem? : ∀ (i : Nat) (name : String), t.names[i]? = some name →
    t.find? name = some ⟨UInt32.ofNat i⟩
  mem_of_find? : ∀ (name : String) (id : NameId), t.find? name = some id → name ∈ t.names

/-- The empty table has no names, and none is found. -/
theorem valid_empty : (∅ : NameTable).Valid where
  nodup := List.nodup_nil
  find?_of_getElem? i name hi := by
    have hnone : (∅ : NameTable).names[i]? = none := Array.getElem?_empty
    cases hnone.symm.trans hi
  mem_of_find? name id hfind := by
    have hnone : (∅ : NameTable).find? name = none := Std.TreeMap.getElem?_emptyc
    cases hnone.symm.trans hfind

/-- Exactly the names of the table have a number. -/
theorem Valid.find?_isSome_iff (h : t.Valid) : (t.find? name).isSome ↔ name ∈ t.names := by
  rw [Option.isSome_iff_exists]
  constructor
  · intro hfind
    obtain ⟨id, hid⟩ := hfind
    exact h.mem_of_find? name id hid
  · intro hmem
    obtain ⟨i, hi⟩ := Array.mem_iff_getElem?.mp hmem
    exact ⟨_, h.find?_of_getElem? i name hi⟩

/-- No name stands in two places. -/
theorem Valid.place_unique (h : t.Valid) {j : Nat} (hi : t.names[i]? = some name)
    (hj : t.names[j]? = some name) : i = j := by
  rw [← Array.getElem?_toList] at hi hj
  obtain ⟨hlt, -⟩ := List.getElem?_eq_some_iff.mp hi
  exact (List.getElem?_inj hlt h.nodup).mp (hi.trans hj.symm)

/-! ## Interning -/

/-- A name that is in the table keeps its number. Any other goes in behind the rest, and changes
nothing for them. -/
theorem intern_cases (t : NameTable) (name : String) :
    (t.find? name = some (t.intern name).1 ∧ (t.intern name).2 = t) ∨
      (t.find? name = none ∧ (t.intern name).1 = ⟨UInt32.ofNat t.size⟩ ∧
        (t.intern name).2.names = t.names.push name ∧
        ∀ other, (t.intern name).2.find? other =
          if other = name then some (t.intern name).1 else t.find? other) := by
  unfold intern
  cases hfind : t.find? name with
  | some id => exact .inl ⟨rfl, rfl⟩
  | none =>
    refine .inr ⟨rfl, rfl, rfl, fun other => ?_⟩
    simp only [find?, Std.TreeMap.getElem?_insert, Std.LawfulEqCmp.compare_eq_iff_eq,
      eq_comm (a := name)]

/-- Interning a name that has a number already changes nothing. -/
theorem intern_of_find? (h : t.find? name = some id) : t.intern name = (id, t) := by
  unfold intern
  rw [h]

/-- A name is found right after it is interned. -/
theorem find?_intern (t : NameTable) (name : String) :
    (t.intern name).2.find? name = some (t.intern name).1 := by
  rcases t.intern_cases name with ⟨hfind, hsame⟩ | ⟨-, -, -, hfind⟩
  · rw [hsame, hfind]
  · rw [hfind, if_pos rfl]

/-- The numbers of other names stay. -/
theorem find?_intern_of_find? (h : t.find? other = some id) :
    (t.intern name).2.find? other = some id := by
  rcases t.intern_cases name with ⟨-, hsame⟩ | ⟨hnone, -, -, hfind⟩
  · rw [hsame, h]
  · have hne : other ≠ name := by
      rintro rfl
      cases hnone.symm.trans h
    rw [hfind, if_neg hne, h]

/-- The names of other numbers stay. -/
theorem get?_intern_of_get? (h : t.get? id = some other) :
    (t.intern name).2.get? id = some other := by
  rcases t.intern_cases name with ⟨-, hsame⟩ | ⟨-, -, hnames, -⟩
  · rw [hsame, h]
  · obtain ⟨hlt, hat⟩ := Array.getElem?_eq_some_iff.mp h
    rw [get?, hnames, Array.getElem?_push_lt hlt, hat]

/-- Interning makes a table no smaller. -/
theorem size_le_intern (t : NameTable) (name : String) : t.size ≤ (t.intern name).2.size := by
  unfold size
  rcases t.intern_cases name with ⟨-, hsame⟩ | ⟨-, -, hnames, -⟩
  · rw [hsame]
  · rw [hnames, Array.size_push]
    exact Nat.le_succ _

/-- Interning enters the name and no other. -/
theorem mem_intern (h : t.Valid) :
    other ∈ (t.intern name).2.names ↔ other = name ∨ other ∈ t.names := by
  rcases t.intern_cases name with ⟨hfind, hsame⟩ | ⟨-, -, hnames, -⟩
  · rw [hsame]
    refine ⟨.inr, fun hmem => hmem.elim (fun heq => ?_) fun hmem => hmem⟩
    exact heq ▸ h.mem_of_find? name _ hfind
  · rw [hnames, Array.mem_push, or_comm]

/-- Interning keeps every name at the number under which it is found. -/
theorem Valid.intern (h : t.Valid) (name : String) : (t.intern name).2.Valid := by
  rcases t.intern_cases name with ⟨-, hsame⟩ | ⟨hnone, hid, hnames, hfind⟩
  · rw [hsame]
    exact h
  · have hnew : name ∉ t.names := by
      intro hmem
      have hsome := h.find?_isSome_iff.mpr hmem
      rw [hnone] at hsome
      cases hsome
    refine ⟨?_, fun i other hi => ?_, fun other id hother => ?_⟩
    · rw [hnames, Array.toList_push, List.nodup_append]
      refine ⟨h.nodup, List.nodup_singleton name, fun a ha b hb => ?_⟩
      rintro rfl
      rw [List.mem_singleton.mp hb] at ha
      exact hnew (Array.mem_toList_iff.mp ha)
    · rw [hnames, Array.getElem?_push] at hi
      rw [hfind]
      split at hi
      · -- the place of the new name
        rename_i hlast
        rw [if_pos (Option.some.inj hi).symm, hid, hlast]
        rfl
      · rw [if_neg, h.find?_of_getElem? i other hi]
        rintro rfl
        exact hnew (Array.mem_of_getElem? hi)
    · rw [hfind] at hother
      rw [hnames, Array.mem_push]
      split at hother
      · exact .inr ‹_›
      · exact .inl (h.mem_of_find? other id hother)

/-! ## Numbers and names -/

/-- A name has the number of its place, as long as there are enough numbers. -/
theorem Valid.get?_eq_some_iff (h : t.Valid) (hsize : t.size ≤ 4294967296) :
    t.get? id = some name ↔ t.find? name = some id := by
  constructor
  · intro hget
    rw [h.find?_of_getElem? _ name hget, UInt32.ofNat_toNat]
  · intro hfind
    obtain ⟨i, hi⟩ := Array.mem_iff_getElem?.mp (h.mem_of_find? name id hfind)
    have hlt : i < t.size := (Array.getElem?_eq_some_iff.mp hi).1
    obtain rfl := Option.some.inj (hfind.symm.trans (h.find?_of_getElem? i name hi))
    rw [get?, UInt32.toNat_ofNat_of_lt' (Nat.lt_of_lt_of_le hlt hsize), hi]

/-- Numbers and names lead to each other exactly as long as there are enough numbers. -/
theorem Valid.exact_iff (h : t.Valid) :
    (∀ id name, t.get? id = some name ↔ t.find? name = some id) ↔ t.size ≤ 4294967296 := by
  refine ⟨fun hexact => ?_, fun hsize id name => h.get?_eq_some_iff hsize⟩
  by_contra hmany
  -- the name behind those that have numbers of their own is found under the first number
  have hlt : 4294967296 < t.names.size := Nat.lt_of_not_le hmany
  have hplace := Array.getElem?_eq_getElem hlt
  have hget := (hexact _ _).mpr (h.find?_of_getElem? _ _ hplace)
  have hzero : (UInt32.ofNat 4294967296).toNat = 0 := rfl
  rw [get?, hzero] at hget
  cases h.place_unique hget hplace

/-! ## Runs -/

/-- A call of one of the operations that change a name table. -/
inductive Call where
  /-- Enters a name. -/
  | intern (name : String)
  /-- Drops all names. -/
  | clear

namespace Call

/-- The table after a call. -/
def apply (t : NameTable) : Call → NameTable
  | intern name => (t.intern name).2
  | clear => ∅

/-- The names that were entered since the table was last cleared. -/
def enter (known : Finset String) : Call → Finset String
  | intern name => insert name known
  | clear => ∅

end Call

/-- The table after some calls. -/
def run (calls : List Call) : NameTable := calls.foldl Call.apply ∅

/-- The names that calls entered since the table was last cleared. -/
def entered (calls : List Call) : Finset String := calls.foldl Call.enter ∅

/-- The table has these names and no others, and what it gives out for a name stays good. -/
structure Knows (t : NameTable) (known : Finset String) : Prop where
  size_eq : t.size = known.card
  find?_isSome_iff : ∀ name, (t.find? name).isSome ↔ name ∈ known
  intern_of_find? : ∀ name id, t.find? name = some id → t.intern name = (id, t)
  find?_intern : ∀ name, (t.intern name).2.find? name = some (t.intern name).1
  find?_kept : ∀ name other id, t.find? other = some id →
    (t.intern name).2.find? other = some id
  get?_kept : ∀ name other id, t.get? id = some other → (t.intern name).2.get? id = some other
  exact_iff : (∀ id name, t.get? id = some name ↔ t.find? name = some id) ↔ t.size ≤ 4294967296

/-- A valid table knows a set of names if it has just these. -/
theorem Valid.knows (h : t.Valid) {known : Finset String}
    (hmem : ∀ name, name ∈ t.names ↔ name ∈ known) : t.Knows known where
  size_eq := by
    have hknown : t.names.toList.toFinset = known := by
      ext name
      rw [List.mem_toFinset, Array.mem_toList_iff, hmem]
    rw [← hknown, List.toFinset_card_of_nodup h.nodup, Array.length_toList]
    rfl
  find?_isSome_iff name := h.find?_isSome_iff.trans (hmem name)
  intern_of_find? _ _ := NameTable.intern_of_find?
  find?_intern := t.find?_intern
  find?_kept _ _ _ := find?_intern_of_find?
  get?_kept _ _ _ := get?_intern_of_get?
  exact_iff := h.exact_iff

/-- Whatever names are entered and dropped, the table has the names that were entered since it was
last cleared. -/
theorem run_knows (calls : List Call) :
    (run calls).Valid ∧ (run calls).Knows (entered calls) := by
  -- from any table on, so that the induction goes through the calls
  have hrun : ∀ (calls : List Call) (t : NameTable) (known : Finset String), t.Valid →
      (∀ name, name ∈ t.names ↔ name ∈ known) → (calls.foldl Call.apply t).Valid ∧
        ∀ name, name ∈ (calls.foldl Call.apply t).names ↔ name ∈ calls.foldl Call.enter known := by
    intro calls
    induction calls with
    | nil => exact fun t known ht hmem => ⟨ht, hmem⟩
    | cons call calls ih =>
      intro t known ht hmem
      cases call with
      | intern name =>
        refine ih _ _ (ht.intern name) fun other => ?_
        rw [Call.apply, Call.enter, mem_intern ht, Finset.mem_insert, hmem]
      | clear =>
        refine ih _ _ valid_empty fun other => ?_
        exact iff_of_false (Array.not_mem_empty other) (Finset.notMem_empty other)
  obtain ⟨hvalid, hmem⟩ := hrun calls ∅ ∅ valid_empty fun name =>
    iff_of_false (Array.not_mem_empty name) (Finset.notMem_empty name)
  exact ⟨hvalid, hvalid.knows hmem⟩

end X86Asm.NameTable
