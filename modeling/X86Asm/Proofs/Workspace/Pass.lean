import X86Asm.Proofs.Layout.Capacity
import X86Asm.Proofs.Layout.Relaxing
import X86Asm.Proofs.Layout.Shrinking
import X86Asm.Proofs.Workspace.Encoding
import X86Asm.Proofs.Workspace.Table

/-!
# Passes over tables

A sweep does what a pass does, with guarded operations on words and on arrays that are indexed by
node and by label. `Sweep.follows_run` says that a sweep over the nodes of a valid program follows
the pass, so none of its operations has a fault. That rests on what holds of every walk of a pass
(`Walk.Sound`): it is not in front of the base, no mark has more slack than the walk, and the slack
is bounded by the number of nodes, of which there are at most as many as an arena has slots.
-/

namespace X86Asm

open Guarded

/-- A layout in arrays. -/
structure Sheet where
  /-- The places of the nodes, in order. -/
  placements : Array Placement := #[]
  /-- The places of the labels, in the order of their numbers. -/
  marks : Array (Option Mark)

/-- A sheet under way. -/
structure Draft where
  /-- What is placed. -/
  sheet : Sheet
  /-- The address behind it. -/
  address : Nat
  /-- The slack behind it. -/
  slack : Nat := 0

/-- What a sweep goes by. -/
structure Sweep where
  /-- The program. -/
  program : Program
  /-- The address of the first node. -/
  base : Nat
  /-- How many bytes there may be. -/
  maxBytes : Nat
  /-- The sheet that the sweep before arrived at. -/
  previous : Option Sheet

namespace Draft

/-- The number of nodes that are placed. -/
def count (d : Draft) : Nat := d.sheet.placements.size

/-- The marks behind a node. -/
def marksAfter (p : Program) (d : Draft) : Node → Guarded (Array (Option Mark))
  | .label l =>
    match p.labelIndex? l with
    | none => return d.sheet.marks
    | some i => setEntry d.sheet.marks i (some ⟨d.address, d.slack⟩)
  | _ => return d.sheet.marks

end Draft

namespace Sweep

/-- What the sweep before made of the node that is to be placed next. -/
def last? (s : Sweep) (d : Draft) : Guarded (Option Placement) :=
  match s.previous with
  | none => return none
  | some sheet => some <$> entry sheet.placements d.count

/-- The estimate of a label ahead, by its index. -/
def lookupAhead (s : Sweep) (d : Draft) (i : Nat) : Guarded (Option Nat) :=
  match s.previous with
  | none => return none
  | some sheet => do
    let last ← entry sheet.placements d.count
    let mark ← entry sheet.marks i
    return do
      let mark ← mark
      let distance ← exactSub? mark.address last.address
      let growth ← exactSub? mark.slack last.slack
      let nearest ← inSpace? (d.address + distance)
      inSpace? (nearest + growth)

/-- The address at which the node that is to be placed next takes a label to be. -/
def lookup (s : Sweep) (d : Draft) (l : Label) : Guarded (Option Nat) :=
  match s.program.labelIndex? l with
  | none => return none
  | some i => do
    match ← entry d.sheet.marks i with
    | some mark =>
      let room ← sub d.slack mark.slack
      return exactSub? mark.address room
    | none => s.lookupAhead d i

/-- The extent of a gap. -/
def gapExtent (address : Nat) (alignment : UInt32) : Guarded Extent := do
  let aligned ← Guarded.alignUp address alignment
  let padding ← sub aligned address
  let capacity ← sub alignment.toNat 1
  return { length := padding, padding, capacity }

/-- The extent of the node that is to be placed next. -/
def extent (s : Sweep) (d : Draft) : Node → Guarded Extent
  | .instruction i => do
    let written ← i.write s.program.mode
      { address := UInt64.ofNat d.address
        lookup := fun l => (Option.map UInt64.ofNat ·) <$> s.lookup d l }
    return { length := written.bytes.length }
  | .label _ => return { length := 0 }
  | .sectionStart sec => gapExtent d.address ((s.program.sectionAlignment? sec).getD 1)
  | .data payload => return { length := payload.size }
  | .align alignment _ => gapExtent d.address alignment
  | .address _ size => return { length := size.toNat }
  | .difference _ _ width => return { length := width.bytes }

/-- An instruction does not take more bytes than in the sweep before. -/
def checkGrowth (s : Sweep) (d : Draft) (node : Node) (length : Nat) : Guarded Unit := do
  match ← s.last? d with
  | none => return ()
  | some last =>
    if node.isInstruction && last.length < length then
      report (.relaxationDiverged (UInt64.ofNat d.count) (UInt64.ofNat last.length)
        (UInt64.ofNat length))
    else return ()

/-- A node that ends in front of `address` leaves the layout within its limits. -/
def checkEnd (s : Sweep) (index address : Nat) : Guarded Unit :=
  if addressSpace ≤ address then report (.layoutPastEnd index)
  else do
    let size ← sub address s.base
    if s.maxBytes < size then
      report (.limitExceeded "output bytes" (UInt64.ofNat s.maxBytes))
    else return ()

/-- Places the next node. -/
def step (s : Sweep) (d : Draft) (node : Node) : Guarded Draft := do
  let extent ← s.extent d node
  let marks ← d.marksAfter s.program node
  s.checkGrowth d node extent.length
  let unused ← sub extent.capacity extent.padding
  let slack ← add d.slack unused
  s.checkEnd d.count (d.address + extent.length)
  return {
    sheet :=
      { placements :=
          d.sheet.placements.push ⟨d.address, extent.length, extent.padding, d.slack⟩
        marks }
    address := d.address + extent.length
    slack }

/-- Places all nodes. -/
def run (s : Sweep) (nodes : List Node) : Guarded Sheet :=
  (·.sheet) <$> nodes.foldlM s.step
    { sheet := { marks := Array.replicate s.program.labels.size none }, address := s.base }

end Sweep

/-! ## What is shown -/

/-- The sheet says what the layout says. -/
structure Sheet.Shows (p : Program) (sheet : Sheet) (layout : Layout) : Prop where
  placements_eq : sheet.placements = layout.placements
  marks : p.Tabulates sheet.marks layout.marks

/-- The draft is where the walk is. -/
structure Draft.Shows (p : Program) (d : Draft) (w : Walk) : Prop where
  sheet : d.sheet.Shows p w.placed
  address_eq : d.address = w.address
  slack_eq : d.slack = w.slack

/-- The sweep goes by what the pass goes by. -/
structure Sweep.Shows (s : Sweep) (pass : Pass) : Prop where
  program_eq : s.program = pass.program
  base_eq : s.base = pass.base
  maxBytes_eq : s.maxBytes = pass.maxBytes
  previous : Option.Rel (Sheet.Shows pass.program) s.previous pass.previous

/-- What holds of every walk of a pass. -/
structure Walk.Sound (pass : Pass) (w : Walk) : Prop where
  base_le : pass.base ≤ w.address
  mark_le : ∀ l mark, w.placed.marks.find? l = some mark → mark.slack ≤ w.slack
  slack_le : w.slack ≤ w.count * (UInt32.size - 1)

variable {pass : Pass} {s : Sweep} {d : Draft} {w w' : Walk} {p : Program} {node : Node}
  {nodes : List Node} {l : Label} {i : Nat} {extent : Extent} {alignment : UInt32}

/-! ## Soundness of walks -/

/-- A gap needs fewer bytes than its alignment, which is a number of 32 bits. -/
theorem Program.gapCapacity_le (p : Program) (node : Node) :
    p.gapCapacity node ≤ UInt32.size - 1 := by
  cases hg : p.gap? node with
  | none =>
    rw [gapCapacity, hg]
    exact Nat.zero_le _
  | some a =>
    have := a.toNat_lt
    rw [gapCapacity, hg, Option.elim_some, UInt32.size]
    omega

/-- Padding does not exceed capacity, which is one of 32 bits. -/
theorem Pass.capacity_le_of_extent (hgap : ∀ a, pass.program.gap? node = some a → 0 < a.toNat)
    (he : pass.extent w node = .ok extent) :
    extent.padding ≤ extent.capacity ∧ extent.capacity ≤ UInt32.size - 1 := by
  obtain ⟨hcap, hpad⟩ := capacity_of_extent hgap he
  exact ⟨hpad, hcap ▸ pass.program.gapCapacity_le node⟩

/-- The walk of a pass is sound in front of the first node. -/
theorem Walk.sound_start (pass : Pass) : Walk.Sound pass { address := pass.base } where
  base_le := Nat.le_refl _
  mark_le l mark h := by simp at h
  slack_le := Nat.zero_le _

/-- Placing a node that has no more padding than its capacity keeps a walk sound. -/
theorem Walk.Sound.place (h : w.Sound pass) (node : Node)
    (hcap : extent.padding ≤ extent.capacity ∧ extent.capacity ≤ UInt32.size - 1) :
    (w.place node extent).Sound pass where
  base_le := Nat.le_trans h.base_le (Nat.le_add_right _ _)
  mark_le l mark hm := by
    have hold (hm : w.placed.marks.find? l = some mark) :
        mark.slack ≤ w.slack + (extent.capacity - extent.padding) :=
      Nat.le_trans (h.mark_le l mark hm) (Nat.le_add_right _ _)
    cases node with
    | label l' =>
      simp only [Walk.place, Walk.marksAfter, LabelTable.find?_insert] at hm
      split at hm
      · cases hm
        exact Nat.le_add_right _ _
      · exact hold hm
    | _ => exact hold hm
  slack_le := by
    have := h.slack_le
    have hcount : (w.place node extent).count = w.count + 1 := by
      rw [Walk.count, Walk.place, Array.size_push]
      rfl
    rw [hcount, Nat.succ_mul]
    simp only [Walk.place]
    omega

/-! ## A sweep follows the pass -/

/-- A sum of three is an address if the sum of two is, and the sum of that and the third. -/
theorem inSpace?_bind (a b c : Nat) :
    ((inSpace? (a + b)).bind fun n => inSpace? (n + c)) = inSpace? (a + b + c) := by
  unfold inSpace?
  by_cases h : a + b < addressSpace
  · rw [if_pos h, Option.bind_some]
  · have h' : ¬ a + b + c < addressSpace := by omega
    rw [if_neg h, if_neg h']
    rfl

/-- The extent of a gap is found without a fault. -/
theorem Sweep.gapExtent_eq (h : Program.isPowerOfTwo alignment) (address : Nat) :
    gapExtent address alignment = embed (Pass.gapExtent address alignment) := by
  have hpos := Program.isPowerOfTwo_pos h
  unfold gapExtent Pass.gapExtent
  rw [alignUp_eq h]
  cases ha : alignUp address alignment with
  | error e => rfl
  | ok aligned =>
    obtain ⟨rfl, -⟩ := alignUp_eq_ok_iff.mp ha
    have haligned := le_roundUp address hpos
    have hpadding := sub_eq haligned
    have hcapacity : sub alignment.toNat 1 = .ok (alignment.toNat - 1) := sub_eq hpos
    simp only [embed_ok, ok_bind, hpadding, hcapacity]
    rfl

/-- An alignment of zero, which no program admits, would be a fault. -/
example : Sweep.gapExtent 0x1000 0 = .error (.fault .arithmetic) := by cbv

section Step

variable (hs : s.Shows pass) (hd : d.Shows pass.program w)

include hd in
/-- A draft has as many places as the walk it shows. -/
theorem Draft.Shows.count_eq : d.count = w.count :=
  congrArg Array.size hd.sheet.placements_eq

include hd in
/-- The marks behind a node are written without a fault, if its label is known. -/
theorem Draft.Shows.follows_marksAfter (hknown : ∀ l, node = .label l → pass.program.ownsLabel l) :
    ∃ marks, d.marksAfter pass.program node = .ok marks ∧
      pass.program.Tabulates marks (w.marksAfter node) := by
  cases node with
  | label l =>
    obtain ⟨i, hi⟩ := Option.isSome_iff_exists.mp (hknown l rfl)
    obtain ⟨marks, hmarks, htab⟩ := hd.sheet.marks.setEntry hi ⟨w.address, w.slack⟩
    refine ⟨marks, ?_, htab⟩
    simp only [marksAfter, hi, hd.address_eq, hd.slack_eq, hmarks]
  | _ => exact ⟨_, rfl, hd.sheet.marks⟩

/-- Both go by nothing, or by what says the same. -/
theorem Sweep.Shows.previous_cases (hs : s.Shows pass) :
    s.previous = none ∧ pass.previous = none ∨
      ∃ sheet layout, s.previous = some sheet ∧ pass.previous = some layout ∧
        sheet.Shows pass.program layout := by
  have hprevious := hs.previous
  generalize s.previous = sheet? at hprevious
  generalize pass.previous = layout? at hprevious
  cases hprevious with
  | none => exact .inl ⟨rfl, rfl⟩
  | some hsheet => exact .inr ⟨_, _, rfl, rfl, hsheet⟩

variable (hlast : ∀ layout, pass.previous = some layout →
  ∃ last, layout.placements[w.count]? = some last)

include hs hd hlast

/-- The place of the node at hand in the sweep before is found without a fault. -/
theorem Sweep.Shows.last?_eq : s.last? d = .ok (pass.last? w) := by
  unfold Sweep.last? Pass.last?
  obtain ⟨hsheet?, hlayout?⟩ | ⟨sheet, layout, hsheet?, hlayout?, hsheet⟩ := hs.previous_cases
  · rw [hsheet?, hlayout?]
    rfl
  · obtain ⟨last, hplace⟩ := hlast layout hlayout?
    have hentry : entry sheet.placements d.count = .ok last := by
      rw [hsheet.placements_eq, hd.count_eq]
      exact entry_eq hplace
    simp only [hsheet?, hlayout?, hentry, Option.bind_some, hplace]
    rfl

/-- A label ahead is looked up as it is estimated. -/
theorem Sweep.Shows.lookupAhead_eq (hi : pass.program.labelIndex? l = some i) :
    s.lookupAhead d i = .ok (pass.estimateAhead w l) := by
  unfold Sweep.lookupAhead Pass.estimateAhead Pass.last?
  obtain ⟨hsheet?, hlayout?⟩ | ⟨sheet, layout, hsheet?, hlayout?, hsheet⟩ := hs.previous_cases
  · rw [hsheet?, hlayout?]
    rfl
  · obtain ⟨last, hplace⟩ := hlast layout hlayout?
    have hentry : entry sheet.placements d.count = .ok last := by
      rw [hsheet.placements_eq, hd.count_eq]
      exact entry_eq hplace
    simp only [hsheet?, hlayout?, hentry, hsheet.marks.entry_eq hi, hd.address_eq, ok_bind,
      Option.bind_eq_bind, Option.bind_some, hplace, inSpace?_bind]
    rfl

/-- A label is looked up as it is estimated. -/
theorem Sweep.Shows.lookup_eq (hsound : w.Sound pass) (l : Label) :
    s.lookup d l = .ok (pass.estimate w l) := by
  unfold Sweep.lookup Pass.estimate
  rw [hs.program_eq]
  cases hi : pass.program.labelIndex? l with
  | none =>
    -- no node of the program places the label, in this pass or the one before
    have hahead : pass.estimateAhead w l = none := by
      unfold Pass.estimateAhead
      obtain ⟨-, hlayout?⟩ | ⟨sheet, layout, -, hlayout?, hsheet⟩ := hs.previous_cases
      · simp [hlayout?]
      · simp [hlayout?, hsheet.marks.outside l hi]
    rw [hd.sheet.marks.outside l hi, hahead]
    rfl
  | some i =>
    simp only [hd.sheet.marks.entry_eq hi, ok_bind]
    cases hm : w.placed.marks.find? l with
    | none => exact hs.lookupAhead_eq hd hlast hi
    | some mark =>
      have hroom : sub d.slack mark.slack = .ok (w.slack - mark.slack) := by
        rw [hd.slack_eq]
        exact sub_eq (hsound.mark_le l mark hm)
      simp only [hroom]
      rfl

/-- The check that no node grows goes as that of the pass. -/
theorem Sweep.Shows.follows_checkGrowth (node : Node) (length : Nat) :
    Follows Eq (s.checkGrowth d node length) (pass.checkGrowth w node length) := by
  rw [Sweep.checkGrowth, hs.last?_eq hd hlast, ok_bind, Pass.checkGrowth, hd.count_eq]
  cases pass.last? w with
  | none => exact .ok rfl
  | some last => exact .ite (fun _ => follows_report _) fun _ => .ok rfl

/-- The extent of a node is found without a fault. -/
theorem Sweep.Shows.follows_extent (hsound : w.Sound pass)
    (hgap : ∀ a, pass.program.gap? node = some a → Program.isPowerOfTwo a) :
    Follows Eq (s.extent d node) (pass.extent w node) := by
  cases node with
  | instruction i =>
    -- the sweep looks labels up where the pass estimates them
    have hsite : ({ address := UInt64.ofNat d.address
                    lookup := fun l => (Option.map UInt64.ofNat ·) <$> s.lookup d l } : Site) =
        Context.site
          { address := UInt64.ofNat w.address
            resolve := fun l => (pass.estimate w l).map UInt64.ofNat } := by
      simp only [Context.site, hd.address_eq, hs.lookup_eq hd hlast hsound]
      rfl
    simp only [Sweep.extent, hsite, hs.program_eq, Instruction.write_eq]
    exact (follows_embed _).bind fun _ _ _ _ h => .ok (h ▸ rfl)
  | label l => exact .ok rfl
  | sectionStart sec =>
    simp only [Sweep.extent, Pass.extent, hs.program_eq, hd.address_eq]
    rw [Sweep.gapExtent_eq (hgap _ rfl)]
    exact follows_embed _
  | data payload => exact .ok rfl
  | align a filler =>
    simp only [Sweep.extent, Pass.extent, hd.address_eq]
    rw [Sweep.gapExtent_eq (hgap _ rfl)]
    exact follows_embed _
  | address l size => exact .ok rfl
  | difference l relativeTo width => exact .ok rfl

/-- A node is placed without a fault. -/
theorem Sweep.Shows.follows_step (hsound : w.Sound pass) (hcount : w.count < UInt32.size)
    (hgap : ∀ a, pass.program.gap? node = some a → Program.isPowerOfTwo a)
    (hknown : ∀ l, node = .label l → pass.program.ownsLabel l) :
    Follows (Draft.Shows pass.program) (s.step d node) (pass.step w node) := by
  unfold Sweep.step Pass.step
  refine (hs.follows_extent hd hlast hsound hgap).bind fun e e' _ he hee' => ?_
  obtain rfl : e = e' := hee'
  have hcap := Pass.capacity_le_of_extent (fun a ha => Program.isPowerOfTwo_pos (hgap a ha)) he
  obtain ⟨marks, hmarks, htab⟩ := hd.follows_marksAfter hknown
  have hunused : sub e.capacity e.padding = .ok (e.capacity - e.padding) := sub_eq hcap.1
  have hslack : add d.slack (e.capacity - e.padding) =
      .ok (w.slack + (e.capacity - e.padding)) := by
    rw [hd.slack_eq]
    refine add_eq ?_
    -- fewer than 2 ^ 32 nodes with less than 2 ^ 32 bytes of slack each make up a word
    have hle := hsound.slack_le
    have : w.count * (UInt32.size - 1) ≤ (UInt32.size - 1) * (UInt32.size - 1) :=
      Nat.mul_le_mul_right _ (Nat.le_pred_of_lt hcount)
    simp only [UInt32.size, addressSpace] at *
    omega
  have hend : Follows Eq (s.checkEnd d.count (d.address + e.length))
      (pass.checkEnd w.count (w.address + e.length)) := by
    have hbase : pass.base ≤ w.address + e.length :=
      Nat.le_trans hsound.base_le (Nat.le_add_right _ _)
    rw [hd.count_eq, hd.address_eq, Sweep.checkEnd, hs.base_eq, hs.maxBytes_eq, sub_eq hbase]
    exact .ite (fun _ => follows_report _) fun _ =>
      .ite (fun _ => follows_report _) fun _ => .ok rfl
  rw [hs.program_eq, hmarks, ok_bind]
  refine (hs.follows_checkGrowth hd hlast node e.length).bind fun _ _ _ _ _ => ?_
  rw [hunused, ok_bind, hslack, ok_bind]
  refine hend.bind fun _ _ _ _ _ => .ok ⟨⟨?_, htab⟩, ?_, rfl⟩
  · simp only [hd.sheet.placements_eq, hd.address_eq, hd.slack_eq]
    rfl
  · exact congrArg (· + e.length) hd.address_eq

end Step

/-- There are no more nodes than an arena has slots. -/
theorem Program.Valid.length_nodeList_le (hp : p.Valid) : p.nodeList.length ≤ UInt32.size := by
  have hlive : ∀ id ∈ p.toList.map Prod.fst, ∃ entry, p.nodes.get? id = some entry := by
    intro id hid
    obtain ⟨⟨id, node⟩, hx, rfl⟩ := List.mem_map.mp hid
    obtain ⟨entry, he, -⟩ := hp.represents.get?_of_mem hx
    exact ⟨entry, he⟩
  have hslots := Arena.length_le_capacity hp.represents.nodup hlive
  rw [nodeList, List.length_map]
  rw [List.length_map] at hslots
  exact Nat.le_trans hslots hp.arena.capacity_le

/-- Nodes are placed without a fault, from any walk in front of them. -/
theorem Sweep.Shows.follows_foldlM (hs : s.Shows pass) (hp : pass.program.Valid)
    (hsize : ∀ layout, pass.previous = some layout →
      layout.placements.size = pass.program.nodeList.length)
    {before rest : List Node} (hnodes : pass.program.nodeList = before ++ rest)
    (hcount : w.count = before.length) (hsound : w.Sound pass) (hd : d.Shows pass.program w) :
    Follows (Draft.Shows pass.program) (rest.foldlM s.step d) (rest.foldlM pass.step w) := by
  induction rest generalizing before d w with
  | nil => exact .ok hd
  | cons node rest ih =>
    have hn : pass.program.nodeList[before.length]? = some node := by simp [hnodes]
    have hlt : w.count < pass.program.nodeList.length := by
      rw [hcount, hnodes, List.length_append, List.length_cons]
      omega
    -- the sweep before placed as many nodes, so it has a place for this one
    have hlast : ∀ layout, pass.previous = some layout →
        ∃ last, layout.placements[w.count]? = some last := fun layout hlayout =>
      ⟨_, Array.getElem?_eq_getElem (hsize layout hlayout ▸ hlt)⟩
    have hgap : ∀ a, pass.program.gap? node = some a → Program.isPowerOfTwo a :=
      fun a ha => hp.gap_isPowerOfTwo hn ha
    have hknown : ∀ l, node = .label l → pass.program.ownsLabel l := by
      rintro l rfl
      rw [Program.ownsLabel_eq]
      exact (hp.admits_getElem? hn).known rfl
    have hspace : w.count < UInt32.size := Nat.lt_of_lt_of_le hlt hp.length_nodeList_le
    rw [List.foldlM_cons, List.foldlM_cons]
    refine (hs.follows_step hd hlast hsound hspace hgap hknown).bind fun d' w' _ hw' hd' => ?_
    obtain ⟨e, he, -, -, rfl⟩ := Pass.step_eq_ok.mp hw'
    have hcap := Pass.capacity_le_of_extent (fun a ha => Program.isPowerOfTwo_pos (hgap a ha)) he
    have hnodes' : pass.program.nodeList = (before ++ [node]) ++ rest := by simp [hnodes]
    refine ih hnodes' ?_ (hsound.place node hcap) hd'
    rw [List.length_append, ← hcount]
    exact Array.size_push _

/-- **A sweep follows the pass.** It places the nodes of a valid program as the pass does, or
reports the same error, and has no fault. -/
theorem Sweep.Shows.follows_run (hs : s.Shows pass) (hp : pass.program.Valid)
    (hsize : ∀ layout, pass.previous = some layout →
      layout.placements.size = pass.program.nodeList.length) :
    Follows (Sheet.Shows pass.program) (s.run pass.program.nodeList)
      (pass.run pass.program.nodeList) := by
  unfold Sweep.run Pass.run
  refine (hs.follows_foldlM hp hsize (List.nil_append _).symm rfl (Walk.sound_start pass)
    ⟨⟨rfl, ?_⟩, hs.base_eq, rfl⟩).map fun d w hd => hd.sheet
  rw [hs.program_eq]
  exact pass.program.tabulates_empty

end X86Asm
