import X86Asm.Image.Assembly
import X86Asm.Proofs.Outcome

/-!
# Pieces

Putting an image together is done node by node. The pieces are as many as the nodes, each of them
is as long as the layout has it (`piece_eq_ok`), and the code is all their bytes in a row.
-/

namespace X86Asm

variable {b : Blueprint} {place : Placement} {node : Node} {index : Nat} {piece : Piece}
  {pieces : List Piece} {items : List (Node × Placement)}

namespace Blueprint

/-- A piece that is accepted is as long as its place. -/
theorem piece_eq_ok (h : b.piece index place node = .ok piece) :
    b.pieceOf place node = .ok piece ∧ piece.bytes.length = place.length := by
  unfold Blueprint.piece at h
  obtain ⟨piece', hpiece, h⟩ := bind_eq_ok_iff.mp h
  split at h
  · cases h
    exact ⟨hpiece, ‹_›⟩
  · cases h

/-- Each node has its piece. -/
theorem pieces_eq_ok (h : b.pieces index items = .ok pieces) :
    pieces.length = items.length ∧ ∀ i node place, items[i]? = some (node, place) →
      ∃ piece, pieces[i]? = some piece ∧ b.piece (index + i) place node = .ok piece := by
  induction items generalizing index pieces with
  | nil =>
    cases h
    exact ⟨rfl, by simp⟩
  | cons item items ih =>
    obtain ⟨node, place⟩ := item
    unfold Blueprint.pieces at h
    simp only [bind_eq_ok_iff] at h
    obtain ⟨piece, hpiece, rest, hrest, h⟩ := h
    cases h
    obtain ⟨hlength, hall⟩ := ih hrest
    refine ⟨by simp [hlength], ?_⟩
    intro i node' place' hi
    cases i with
    | zero =>
      cases hi
      exact ⟨piece, rfl, hpiece⟩
    | succ i =>
      obtain ⟨piece', hi', hpiece'⟩ := hall i node' place' hi
      exact ⟨piece', hi', by rwa [Nat.add_right_comm] at hpiece'⟩

/-- What fails is the first piece that does. -/
theorem pieces_eq_error {e : Error} (h : b.pieces index items = .error e) :
    ∃ i node place, items[i]? = some (node, place) ∧ b.piece (index + i) place node = .error e ∧
      ∀ k < i, ∀ node place, items[k]? = some (node, place) →
        ∃ piece, b.piece (index + k) place node = .ok piece := by
  induction items generalizing index with
  | nil => cases h
  | cons item items ih =>
    obtain ⟨node, place⟩ := item
    unfold Blueprint.pieces at h
    simp only [bind_eq_error_iff] at h
    rcases h with h | ⟨piece, hpiece, h | ⟨rest, -, h⟩⟩
    · exact ⟨0, node, place, rfl, h, nofun⟩
    · obtain ⟨i, node', place', hi, herror, hbefore⟩ := ih h
      refine ⟨i + 1, node', place', hi, by rwa [Nat.add_right_comm] at herror, ?_⟩
      rintro (_ | k) hk node'' place'' hitem
      · cases hitem
        exact ⟨piece, hpiece⟩
      · have hok := hbefore k (Nat.lt_of_succ_lt_succ hk) node'' place'' hitem
        rwa [Nat.add_right_comm] at hok
    · cases h

/-- What a blueprint encodes is an encoding of the instruction. -/
theorem encode_eq_ok {i : Instruction} {ctx : Context} {encoded : Encoded}
    (h : b.encode i ctx = .ok encoded) : i.encode b.program.mode ctx = .ok encoded := by
  unfold Blueprint.encode at h
  cases hi : i.encode b.program.mode ctx with
  | error e => rw [hi] at h; cases h
  | ok encoded' => rw [hi] at h; exact h

/-- What is encoded at a place is the first choice, or the near form if that is too short. -/
theorem encodeAt_eq_ok {i : Instruction} {encoded : Encoded}
    (h : b.encodeAt place i = .ok encoded) :
    ∃ first, i.encode b.program.mode (b.context place) = .ok first ∧
      (place.length ≤ first.bytes.length ∧ encoded = first ∨
        first.bytes.length < place.length ∧
          i.encode b.program.mode { b.context place with near := true } = .ok encoded) := by
  unfold encodeAt at h
  obtain ⟨first, hfirst, h⟩ := bind_eq_ok_iff.mp h
  refine ⟨first, encode_eq_ok hfirst, ?_⟩
  split at h
  · rename_i hlt
    exact .inr ⟨hlt, encode_eq_ok h⟩
  · rename_i hle
    cases h
    exact .inl ⟨Nat.not_lt.mp hle, rfl⟩

/-- A blueprint takes the encoding of an instruction if there is one. -/
theorem encode_of_ok {i : Instruction} {ctx : Context} {encoded : Encoded}
    (h : i.encode b.program.mode ctx = .ok encoded) : b.encode i ctx = .ok encoded := by
  unfold Blueprint.encode
  rw [h]
  rfl

/-- What is shorter than its place is pinned to the near form. -/
theorem encodeAt_of_encode {i : Instruction} {encoded : Encoded}
    (h : b.encode i (b.context place) = .ok encoded) :
    b.encodeAt place i = if encoded.bytes.length < place.length then
      b.encode i { b.context place with near := true } else .ok encoded := by
  unfold encodeAt
  rw [h]
  rfl

/-- An instruction in its place is encoded as it is or with its branch near. -/
theorem exists_encode_of_encodeAt {i : Instruction} {encoded : Encoded}
    (h : b.encodeAt place i = .ok encoded) :
    ∃ near, i.encode b.program.mode { b.context place with near } = .ok encoded := by
  obtain ⟨first, hfirst, ⟨-, rfl⟩ | ⟨-, hnear⟩⟩ := encodeAt_eq_ok h
  · exact ⟨false, hfirst⟩
  · exact ⟨true, hnear⟩

/-- An instruction in its place fails as it does as it is or with its branch near. -/
theorem encodeAt_eq_error {i : Instruction} {e : Error} (h : b.encodeAt place i = .error e) :
    ∃ near, b.encode i { b.context place with near } = .error e := by
  rcases bind_eq_error_iff.mp h with h | ⟨first, -, h⟩
  · exact ⟨false, h⟩
  · split at h
    · exact ⟨true, h⟩
    · cases h

/-- A label resolves to the address that it has. -/
theorem resolve_eq_ok {l : Label} {address : UInt64} :
    b.resolve l = .ok address ↔ b.addresses.find? l = some address := by
  unfold resolve
  cases b.addresses.find? l <;> simp

/-- A node is not turned into bytes if its instruction is not encoded, if it refers to a label
without an address, or if it is an address that is too wide. -/
theorem pieceOf_eq_error {e : Error} (h : b.pieceOf place node = .error e) :
    (∃ i, node = .instruction i ∧ b.encodeAt place i = .error e) ∨
      (∃ l ∈ node.references, b.resolve l = .error e) ∨
      ∃ l size target, node = .address l size ∧ b.resolve l = .ok target ∧
        addressFits b.program.mode size target = false ∧
          e = .displacementOutOfRange l.id target.toInt64 size := by
  cases node with
  | instruction i =>
    rcases bind_eq_error_iff.mp h with h | ⟨encoded, -, h⟩
    · exact .inl ⟨i, rfl, h⟩
    · cases h
  | address l size =>
    rcases bind_eq_error_iff.mp h with h | ⟨target, htarget, h⟩
    · exact .inr (.inl ⟨l, List.mem_cons_self, h⟩)
    · split at h
      · cases h
      · rename_i hfits
        cases h
        exact .inr (.inr ⟨l, size, target, rfl, htarget, Bool.eq_false_iff.mpr hfits, rfl⟩)
  | difference l relativeTo width =>
    rcases bind_eq_error_iff.mp h with h | ⟨target, -, h⟩
    · exact .inr (.inl ⟨l, List.mem_cons_self, h⟩)
    · rcases bind_eq_error_iff.mp h with h | ⟨origin, -, h⟩
      · exact .inr (.inl ⟨relativeTo, List.mem_cons_of_mem _ List.mem_cons_self, h⟩)
      · cases h
  | _ => cases h

end Blueprint

/-- Pieces one behind the other from an offset on, each in a relation to its counterpart. -/
inductive Piece.InRow {β : Type} (R : Nat → Piece → β → Prop) : Nat → List Piece → List β → Prop
  | nil {offset : Nat} : InRow R offset [] []
  | cons {offset : Nat} {piece : Piece} {x : β} {pieces : List Piece} {xs : List β} :
      R offset piece x → InRow R (offset + piece.bytes.length) pieces xs →
      InRow R offset (piece :: pieces) (x :: xs)

/-- Pieces lie in a row if each of them lies where the one in front of it ends. -/
theorem Piece.InRow.of_getElem? {β : Type} {R : Nat → Piece → β → Prop} {xs : List β}
    (offset : Nat → Nat) (hlength : pieces.length = xs.length)
    (hall : ∀ (i : Nat) (piece : Piece) (x : β), pieces[i]? = some piece → xs[i]? = some x →
      R (offset i) piece x ∧ offset (i + 1) = offset i + piece.bytes.length) :
    InRow R (offset 0) pieces xs := by
  induction pieces generalizing xs offset with
  | nil =>
    obtain rfl := List.length_eq_zero_iff.mp hlength.symm
    exact .nil
  | cons piece pieces ih =>
    cases xs with
    | nil => cases hlength
    | cons x xs =>
      obtain ⟨hpiece, hnext⟩ := hall 0 piece x rfl rfl
      refine .cons hpiece ?_
      rw [← hnext]
      exact ih (fun i => offset (i + 1)) (Nat.succ.inj hlength)
        fun i q y hq hy => hall (i + 1) q y hq hy

end X86Asm
