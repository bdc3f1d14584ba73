import Mathlib.Data.Finset.Card
import Mathlib.Order.Bounds.Defs
import X86Asm.Proofs.Arena

/-!
# Arenas keep a ledger

A ledger is what a user of an arena can write down: the ids that insertions returned, and the value
that was last stored under each of them. `Ledger.enter` writes down a call and its answer, and
touches no id but the one that the call is about.

Whatever calls are made, the arena finds what the ledger says (`keeps_ledger`). An insertion returns
an id that is not in the ledger yet, as long as fewer values are taken out than a slot has
generations. A free slot is used before a new one is made, so the number of slots is the greatest
size so far (`Call.Effect.capacity_eq`).

What a call does to an arena is said once, in `Call.Effect`.
-/

namespace X86Asm.Arena

variable {α : Type} {a a' : Arena α} {id : NodeId} {v : α}

/-! ## Calls -/

/-- A call of one of the operations that change an arena. -/
inductive Call (α : Type) where
  /-- Puts a value in. -/
  | insert (value : α)
  /-- Takes the value of an id out. -/
  | erase (id : NodeId)
  /-- Changes the value of an id. -/
  | modify (id : NodeId) (f : α → α)

/-- What a call returns. -/
inductive Answer (α : Type) where
  /-- The id of the value that was put in. -/
  | issued (id : NodeId)
  /-- Why the value is not put in. -/
  | refused (e : Error)
  /-- The value that was found under the id. -/
  | found (value : Option α)

namespace Call

/-- The arena after a call. -/
def apply (a : Arena α) : Call α → Arena α
  | insert value =>
    match a.insert value with
    | .ok (_, a') => a'
    | .error _ => a
  | erase id => (a.erase id).elim a Prod.snd
  | modify id f => a.modify id f

/-- What a call returns. -/
def answer (a : Arena α) : Call α → Answer α
  | insert value =>
    match a.insert value with
    | .ok (id, _) => .issued id
    | .error e => .refused e
  | erase id => .found ((a.erase id).map Prod.fst)
  | modify id _ => .found (a.get? id)

/-- The call takes a value out. -/
def removes (a : Arena α) : Call α → Bool
  | erase id => a.contains id
  | _ => false

/-- The id that a call names. -/
def target? : Call α → Option NodeId
  | insert _ => none
  | erase id | modify id _ => some id

/-- What a call does to an arena, by what it returns. -/
inductive Effect (a a' : Arena α) : Call α → Answer α → Prop
  | inserted {v : α} {id : NodeId} :
      a.insert v = .ok (id, a') → Effect a a' (.insert v) (.issued id)
  | refused {v : α} {e : Error} :
      a.insert v = .error e → a' = a → Effect a a' (.insert v) (.refused e)
  | erased {id : NodeId} {v : α} :
      a.erase id = some (v, a') → Effect a a' (.erase id) (.found (some v))
  | modified {id : NodeId} {v : α} {f : α → α} :
      a.get? id = some v → a' = a.modify id f → Effect a a' (.modify id f) (.found (some v))
  | missed {call : Call α} {id : NodeId} :
      call.target? = some id → a.get? id = none → a' = a → Effect a a' call (.found none)

/-- Every call has the effect that goes with what it returns. -/
theorem effect (call : Call α) (a : Arena α) : Effect a (call.apply a) call (call.answer a) := by
  cases call with
  | insert v =>
    simp only [apply, answer]
    split
    · exact .inserted ‹_›
    · exact .refused ‹_› rfl
  | erase id =>
    simp only [apply, answer]
    cases he : a.erase id with
    | none => exact .missed rfl (erase_eq_none_iff.mp he) rfl
    | some r => exact .erased he
  | modify id f =>
    simp only [apply, answer]
    cases hv : a.get? id with
    | none =>
      refine .missed rfl hv ?_
      rw [Arena.modify, contains, hv, if_neg (by simp)]
    | some v => exact .modified hv rfl

end Call

/-! ## Ledgers -/

/-- What a user of an arena knows of it. -/
structure Ledger (α : Type) where
  /-- The ids that insertions returned. -/
  issued : Finset NodeId := ∅
  /-- The values that the ids have. -/
  value? : NodeId → Option α := fun _ => none

namespace Ledger

/-- The number of ids that have values. -/
def size (s : Ledger α) : Nat := (s.issued.filter fun id => (s.value? id).isSome).card

/-- Gives an id a value, or none. -/
def set (s : Ledger α) (id : NodeId) (value : Option α) : Ledger α :=
  { s with value? := fun k => if k = id then value else s.value? k }

/-- Writes down a call and what it returned. -/
def enter (s : Ledger α) : Call α → Answer α → Ledger α
  | .insert v, .issued id => { s.set id (some v) with issued := Insert.insert id s.issued }
  | .erase id, .found (some _) => s.set id none
  | .modify id f, .found (some v) => s.set id (some (f v))
  | _, _ => s

/-- A call that finds nothing is not written down. -/
theorem enter_found_none (s : Ledger α) (call : Call α) : s.enter call (.found none) = s := by
  cases call <;> rfl

end Ledger

/-- The arena finds the values of the ledger under the ids of the ledger, and its free list names
the empty slots, each of them once. -/
structure Keeps (a : Arena α) (s : Ledger α) : Prop where
  valid : a.Valid
  get?_eq : ∀ id, a.get? id = s.value? id
  contains_eq : ∀ id, a.contains id = (s.value? id).isSome
  erase_eq : ∀ id, (a.erase id).map Prod.fst = s.value? id
  size_eq : a.size = s.size

/-- The arena and the ledger agree, and no id of the ledger can be issued again. -/
structure Agrees (a : Arena α) (s : Ledger α) : Prop where
  valid : a.Valid
  get?_eq : ∀ id, a.get? id = s.value? id
  issued_of_value : ∀ id v, s.value? id = some v → id ∈ s.issued
  used : ∀ id ∈ s.issued, a.Used id

/-- The empty arena agrees with the ledger in which nothing is written. -/
theorem agrees_empty : (∅ : Arena α).Agrees {} where
  valid := valid_empty
  get?_eq _ := get?_empty
  issued_of_value _ _ hv := by cases hv
  used id hid := absurd hid (Finset.notMem_empty id)

/-- An arena that agrees with a ledger finds what the ledger says, and nothing else. -/
theorem Agrees.keeps {s : Ledger α} (h : a.Agrees s) : a.Keeps s where
  valid := h.valid
  get?_eq := h.get?_eq
  contains_eq id := by rw [contains, h.get?_eq]
  erase_eq id := by
    rw [← h.get?_eq, erase, Option.map_map]
    exact Option.map_id' ..
  size_eq := by
    rw [Ledger.size, ← Finset.length_toList]
    refine h.valid.size_eq (Finset.nodup_toList _) fun id => ?_
    rw [Finset.mem_toList, Finset.mem_filter, h.get?_eq, Option.isSome_iff_exists]
    constructor
    · intro hid
      exact hid.2
    · intro hv
      obtain ⟨v, hid⟩ := hv
      exact ⟨h.issued_of_value id v hid, v, hid⟩

/-! ## One call -/

/-- A value finds no slot only if all of them are taken. -/
theorem Valid.size_of_insert_error (h : a.Valid) {e : Error} (hi : a.insert v = .error e) :
    a.size = 4294967296 := by
  obtain ⟨-, hfree⟩ := insert_eq_error hi
  have hslots := h.size_add_free
  have hle : a.slots.size ≤ 4294967296 := h.capacity_le
  rw [hfree, List.length_nil, Nat.add_zero] at hslots
  unfold Arena.insert at hi
  rw [hfree] at hi
  simp only at hi
  split at hi
  · cases hi
  · rename_i hfull
    have hge : 4294967296 ≤ a.slots.size := Nat.le_of_not_lt hfull
    omega

namespace Call.Effect

variable {call : Call α} {r : Answer α} {count : Nat}

/-- Every call keeps the free list in step with the slots. -/
theorem valid (h : Effect a a' call r) (ha : a.Valid) : a'.Valid := by
  cases h with
  | inserted hi => exact ha.insert hi
  | refused _ hsame => exact hsame ▸ ha
  | erased he => exact ha.erase he
  | modified _ hmodify => exact hmodify ▸ ha.modify _ _
  | missed _ _ hsame => exact hsame ▸ ha

/-- A call frees at most the slot of the value that it takes out. -/
theorem freedAtMost (h : Effect a a' call r) (ha : a.Valid) (hcount : a.FreedAtMost count) :
    a'.FreedAtMost (count + if call.removes a then 1 else 0) := by
  cases h with
  | inserted hi => exact (fills_insert ha hi).freedAtMost hcount
  | refused _ hsame => exact hsame ▸ hcount
  | erased he =>
    have hfrees := frees_erase he
    rw [removes, contains_iff_status?.mpr hfrees.before, if_pos rfl]
    exact hfrees.freedAtMost hcount
  | modified _ hmodify =>
    intro i g occupied hg
    rw [hmodify, status?_modify] at hg
    exact hcount i g occupied hg
  | missed _ _ hsame =>
    intro i g occupied hg
    exact Nat.le_add_right_of_le (hcount i g occupied (hsame ▸ hg))

/-- A call changes the arena as it changes the ledger. -/
theorem agrees {s : Ledger α} (h : Effect a a' call r) (ha : a.Agrees s)
    (hcount : a.FreedAtMost count) (hwrap : call.removes a = true → count + 1 < UInt32.size) :
    a'.Agrees (s.enter call r) := by
  cases h with
  | @inserted v id hi =>
    obtain ⟨-, hget⟩ := insert_spec ha.valid hi
    have hfills := fills_insert ha.valid hi
    refine ⟨ha.valid.insert hi, fun k => ?_, fun k w hw => ?_, fun k hk => ?_⟩
    · rw [hget, ha.get?_eq]
      rfl
    · simp only [Ledger.enter, Ledger.set, Finset.mem_insert] at hw ⊢
      split at hw
      · exact .inl ‹_›
      · exact .inr (ha.issued_of_value k w hw)
    · rcases Finset.mem_insert.mp hk with rfl | hk
      · exact used_of_contains hfills.contains
      · exact hfills.used (ha.used k hk)
  | refused _ hsame => exact hsame ▸ ha
  | @erased id v he =>
    have hfrees := frees_erase he
    -- with few removals so far the generation of the slot has not come round
    have hlt := hwrap (contains_iff_status?.mpr hfrees.before)
    have hle := hcount _ _ _ hfrees.before
    refine ⟨ha.valid.erase he, fun k => ?_, fun k w hw => ?_, fun k hk => ?_⟩
    · rw [get?_erase he, ha.get?_eq]
      rfl
    · simp only [Ledger.enter, Ledger.set] at hw ⊢
      split at hw
      · cases hw
      · exact ha.issued_of_value k w hw
    · exact hfrees.used (by omega) (ha.used k hk)
  | @modified id v f hv hmodify =>
    subst hmodify
    refine ⟨ha.valid.modify id f, fun k => ?_, fun k w hw => ?_, fun k hk => ?_⟩
    · rw [get?_modify, hv, ha.get?_eq]
      rfl
    · simp only [Ledger.enter, Ledger.set] at hw ⊢
      split at hw
      · rename_i hk
        exact ha.issued_of_value k v (by rw [← ha.get?_eq, hk, hv])
      · exact ha.issued_of_value k w hw
    · exact (used_congr (status?_modify a id f)).mpr (ha.used k hk)
  | missed _ _ hsame =>
    rw [Ledger.enter_found_none, hsame]
    exact ha

/-- There are as many slots as there were, or as there are values if these are more. -/
theorem capacity_eq (h : Effect a a' call r) (ha : a.Valid) :
    a'.capacity = max a.capacity a'.size := by
  have hslots := ha.size_add_free
  unfold capacity
  cases h with
  | inserted hi =>
    rcases insert_cases ha hi with ⟨free, hfree, -, rfl⟩ | ⟨hfree, -, -, -, rfl⟩
    · -- a free slot is used again, so there were fewer values than slots
      rw [hfree, List.length_cons] at hslots
      simp only [Array.size_modify]
      omega
    · -- all slots were taken, and both numbers go up by one
      rw [hfree, List.length_nil] at hslots
      simp only [Array.size_push]
      omega
  | refused _ hsame =>
    subst hsame
    omega
  | erased he =>
    obtain ⟨-, rfl⟩ := erase_cases he
    simp only [Array.size_modify]
    omega
  | modified _ hmodify =>
    subst hmodify
    unfold Arena.modify
    split
    · simp only [Array.size_modify]
      omega
    · omega
  | missed _ _ hsame =>
    subst hsame
    omega

end Call.Effect

/-! ## Runs -/

variable {calls : List (Call α)} {n : Nat}

/-- The arena that the first calls lead to. -/
def run (calls : List (Call α)) (n : Nat) : Arena α :=
  (calls.take n).foldl Call.apply ∅

/-- The ledger of the first calls. -/
def ledger (calls : List (Call α)) : Nat → Ledger α
  | 0 => {}
  | n + 1 =>
    match calls[n]? with
    | some call => (ledger calls n).enter call (call.answer (run calls n))
    | none => ledger calls n

/-- How many of the first calls take a value out. -/
def removals (calls : List (Call α)) (n : Nat) : Nat :=
  (List.range n).countP fun k => (calls[k]?).any (·.removes (run calls k))

/-- What the next call of a run does. -/
theorem effect_run (hn : n < calls.length) :
    Call.Effect (run calls n) (run calls (n + 1)) calls[n] (calls[n].answer (run calls n)) := by
  have hsucc : run calls (n + 1) = calls[n].apply (run calls n) := by
    rw [run, List.take_add_one, List.getElem?_eq_getElem hn, List.foldl_append]
    rfl
  rw [hsucc]
  exact calls[n].effect _

/-- The next call of a run is written down with what it returns. -/
theorem ledger_succ (hn : n < calls.length) :
    ledger calls (n + 1) = (ledger calls n).enter calls[n] (calls[n].answer (run calls n)) := by
  rw [ledger, List.getElem?_eq_getElem hn]

/-- The next call of a run takes out at most one value more. -/
theorem removals_succ (hn : n < calls.length) :
    removals calls (n + 1) =
      removals calls n + if calls[n].removes (run calls n) then 1 else 0 := by
  rw [removals, List.range_succ, List.countP_append, List.countP_singleton,
    List.getElem?_eq_getElem hn]
  rfl

/-- The longer a run, the more values were taken out. -/
theorem removals_mono (calls : List (Call α)) {m : Nat} (h : n ≤ m) :
    removals calls n ≤ removals calls m :=
  (List.range_sublist.mpr h).countP_le

/-- Whatever calls are made, the free list stays in step with the slots. -/
theorem valid_run (hn : n ≤ calls.length) : (run calls n).Valid := by
  induction n with
  | zero => exact valid_empty
  | succ n ih => exact (effect_run hn).valid (ih (Nat.le_of_lt hn))

/-- No slot was freed more often than values were taken out. -/
theorem freedAtMost_removals (hn : n ≤ calls.length) :
    (run calls n).FreedAtMost (removals calls n) := by
  induction n with
  | zero => exact freedAtMost_empty
  | succ n ih =>
    rw [removals_succ hn]
    exact (effect_run hn).freedAtMost (valid_run (Nat.le_of_lt hn)) (ih (Nat.le_of_lt hn))

/-- The arena agrees with the ledger after every call, by induction on the calls. -/
theorem agrees_ledger (hfew : removals calls calls.length < UInt32.size) (hn : n ≤ calls.length) :
    (run calls n).Agrees (ledger calls n) := by
  induction n with
  | zero => exact agrees_empty
  | succ n ih =>
    rw [ledger_succ hn]
    have hcount := freedAtMost_removals (Nat.le_of_lt hn)
    refine (effect_run hn).agrees (ih (Nat.le_of_lt hn)) hcount fun hremoves => ?_
    -- the call that takes a value out is counted as well
    have hsucc := removals_succ hn
    rw [if_pos hremoves] at hsucc
    have hmono := removals_mono calls hn
    omega

/-- The number of slots is the greatest size so far. -/
theorem isGreatest_capacity (hn : n ≤ calls.length) :
    IsGreatest {size | ∃ k ≤ n, (run calls k).size = size} (run calls n).capacity := by
  induction n with
  | zero =>
    refine ⟨⟨0, Nat.le_refl 0, rfl⟩, ?_⟩
    rintro size ⟨k, hk, rfl⟩
    rw [Nat.le_zero.mp hk]
    exact Nat.le_refl 0
  | succ n ih =>
    obtain ⟨⟨k, hk, hsize⟩, hupper⟩ := ih (Nat.le_of_lt hn)
    have hstep := (effect_run hn).capacity_eq (valid_run (Nat.le_of_lt hn))
    constructor
    · -- the greatest size is that of before, or that of now
      rcases Nat.le_total (run calls (n + 1)).size (run calls n).capacity with hle | hle
      · refine ⟨k, Nat.le_succ_of_le hk, ?_⟩
        rw [hstep, Nat.max_eq_left hle, hsize]
      · refine ⟨n + 1, Nat.le_refl _, ?_⟩
        rw [hstep, Nat.max_eq_right hle]
    · rintro size ⟨j, hj, rfl⟩
      rw [hstep]
      rcases Nat.le_or_eq_of_le_succ hj with hj | rfl
      · exact Nat.le_trans (hupper ⟨j, hj, rfl⟩) (Nat.le_max_left _ _)
      · exact Nat.le_max_right _ _

/-- **Arenas keep a ledger.** While fewer values are taken out than a slot has generations, the
arena finds exactly the values of the ledger. It has as many slots as it ever held values at once.
An insertion returns an id that was never returned before, unless every number that a slot can have
is taken by a value. -/
theorem keeps_ledger (calls : List (Call α)) (hfew : removals calls calls.length < 4294967296)
    (hn : n ≤ calls.length) :
    (run calls n).Keeps (ledger calls n) ∧
      IsGreatest {size | ∃ k ≤ n, (ledger calls k).size = size} (run calls n).capacity ∧
      ∀ v, (∃ id, (Call.insert v).answer (run calls n) = .issued id ∧
          id ∉ (ledger calls n).issued) ∨
        ((Call.insert v).answer (run calls n) = .refused (.handlesExhausted "nodes") ∧
          (ledger calls n).size = 4294967296) := by
  have hagrees := agrees_ledger hfew hn
  have hsizes : {size | ∃ k ≤ n, (ledger calls k).size = size} =
      {size | ∃ k ≤ n, (run calls k).size = size} := by
    ext size
    refine exists_congr fun k => and_congr_right fun hk => ?_
    rw [(agrees_ledger hfew (Nat.le_trans hk hn)).keeps.size_eq]
  refine ⟨hagrees.keeps, hsizes ▸ isGreatest_capacity hn, fun v => ?_⟩
  have heffect := (Call.insert v).effect (run calls n)
  cases hanswer : (Call.insert v).answer (run calls n) with
  | issued id =>
    rw [hanswer] at heffect
    cases heffect with
    | inserted hi =>
      refine .inl ⟨id, rfl, fun hissued => ?_⟩
      -- ids that were returned before are used up, and the new one is not
      exact (fills_insert hagrees.valid hi).not_used (hagrees.used id hissued)
  | refused e =>
    rw [hanswer] at heffect
    cases heffect with
    | refused hi _ =>
      obtain ⟨rfl, -⟩ := insert_eq_error hi
      exact .inr ⟨rfl, hagrees.keeps.size_eq ▸ hagrees.valid.size_of_insert_error hi⟩
  | found value =>
    rw [hanswer] at heffect
    cases heffect with
    | missed htarget _ _ => cases htarget

/-- A slot is freed, taken again, and the value in it changed. -/
def recycling : List (Call Nat) :=
  [.insert 10, .insert 20, .erase ⟨0, 0⟩, .insert 30, .modify ⟨0, 1⟩ (· + 5), .erase ⟨0, 0⟩,
    .insert 40]

/-- The first id stays without a value, though its slot has one. -/
theorem keeps_ledger_recycling :
    removals recycling recycling.length < 4294967296 ∧
      (run recycling 6).get? ⟨0, 0⟩ = none ∧ (run recycling 6).get? ⟨0, 1⟩ = some 35 ∧
      (run recycling 6).size = 2 ∧
      IsGreatest {size | ∃ k ≤ 6, (ledger recycling k).size = size} 2 ∧
      ∃ id, (Call.insert 40).answer (run recycling 6) = .issued id ∧
        id ∉ (ledger recycling 6).issued := by
  have hfew : removals recycling recycling.length < 4294967296 := by decide +kernel
  have hsize : (ledger recycling 6).size = 2 := by decide +kernel
  obtain ⟨hkeeps, hgreatest, hinsert⟩ := keeps_ledger recycling hfew (by decide : 6 ≤ 7)
  refine ⟨hfew, hkeeps.get?_eq _, hkeeps.get?_eq _, hkeeps.size_eq.trans hsize, hgreatest, ?_⟩
  refine (hinsert 40).resolve_right fun hrefused => ?_
  omega

end X86Asm.Arena
