import X86Asm.Proofs.Image.Divergence
import X86Asm.Proofs.Image.Unresolved
import X86Asm.Proofs.Workspace.Emission

/-!
# Workspaces and assemblers agree

A sheet that shows a layout has its places in sequence, so the whole way through a workspace goes as
the whole way from a program to its image. Given a program that can come about, a workspace reports
what an assembler with the same limits reports, and holds what that shows
(`Workspace.assemble_agrees`).
-/

namespace X86Asm

open Guarded Work Workspace

variable {p : Program} {base : UInt64} {limits : Limits} {previous : Option Layout}
  {layout : Layout} {sheet : Sheet} {walk : Nat → Walk} {extent : Nat → Extent}

/-! ## The places of a sheet -/

namespace Workspace

/-- Places at the addresses of a sequence are in sequence. -/
theorem InSequence.of_getElem? {items : List (Node × Placement)} (address : Nat → Nat)
    (h : ∀ i node place, items[i]? = some (node, place) →
      place.address = address i ∧ address i + place.padding < addressSpace ∧ node.InDomain ∧
        address (i + 1) = address i + place.length) : InSequence (address 0) items := by
  induction items generalizing address with
  | nil => trivial
  | cons item items ih =>
    obtain ⟨node, place⟩ := item
    obtain ⟨haddress, hend, hnode, hnext⟩ := h 0 node place rfl
    refine ⟨haddress, hend, hnode, ?_⟩
    rw [← hnext]
    exact ih (fun i => address (i + 1)) fun i => h (i + 1)

end Workspace

namespace Pass.Arrival

variable (h : (p.pass base limits previous).Arrival p.nodeList layout walk extent)

include h

/-- The nodes of a program are placed in sequence. -/
theorem inSequence (hp : p.Valid) :
    InSequence base.toNat (p.nodeList.zip layout.placements.toList) := by
  have hstart : (walk 0).address = base.toNat := h.trace.address_zero
  rw [← hstart]
  refine .of_getElem? (fun i => (walk i).address) fun i node place hi => ?_
  obtain ⟨hn, hplace⟩ := List.getElem?_zip_eq_some.mp hi
  obtain ⟨hlt, -⟩ := List.getElem?_eq_some_iff.mp hn
  rw [Array.getElem?_toList, h.placement hlt] at hplace
  obtain rfl := Option.some.inj hplace
  have hpadding := padding_le_length (h.trace.extent_eq i node hlt hn)
  have hnext := h.trace.address_succ hlt
  have hspace : (walk (i + 1)).address < addressSpace :=
    h.trace.address_lt (p.pass_base_lt base limits previous) hlt
  have hend : (walk i).address + (extent i).padding < addressSpace := by omega
  exact ⟨rfl, hend, (hp.admits_getElem? hn).inDomain, hnext⟩

/-- The number of bytes is found without a fault. -/
theorem exists_total (hsheet : sheet.Shows p layout) : ∃ total, sheet.total base = .ok total := by
  unfold Sheet.total
  cases hback : sheet.placements.back? with
  | none => exact ⟨0, rfl⟩
  | some last =>
    rw [hsheet.placements_eq, Array.back?_eq_getElem?, h.size_placements] at hback
    have hlt : p.nodeList.length - 1 < p.nodeList.length := by
      obtain ⟨hlt, -⟩ := Array.getElem?_eq_some_iff.mp hback
      rwa [h.size_placements] at hlt
    rw [h.placement hlt] at hback
    obtain rfl := Option.some.inj hback
    have hbase : base.toNat ≤ (walk (p.nodeList.length - 1)).address :=
      h.trace.base_le (Nat.le_of_lt hlt)
    have hspace := h.trace.address_lt (p.pass_base_lt base limits previous) hlt
    rw [h.trace.address_succ hlt] at hspace
    simp only [sub_eq hbase, ok_bind]
    exact ⟨_, add_eq (by omega)⟩

end Pass.Arrival

/-! ## Relaxation -/

/-- A sheet is settled when the layout it shows is. -/
theorem Sheet.Shows.isSettled_eq {previous' : Option Sheet}
    (hprevious : Option.Rel (Sheet.Shows p) previous' previous) (hsheet : sheet.Shows p layout)
    (nodes : List Node) :
    Sheet.isSettled nodes previous' sheet = Program.isSettled nodes previous layout := by
  cases hprevious with
  | none => rfl
  | some hlast =>
    simp only [Sheet.isSettled, Program.isSettled, Layout.shapes, hlast.placements_eq,
      hsheet.placements_eq]
    exact decide_eq_decide.mpr Iff.rfl

/-- The addresses in a sheet are the label addresses of the layout it shows. -/
theorem Sheet.Shows.tabulates_addresses (hsheet : sheet.Shows p layout) :
    p.Tabulates sheet.addresses layout.addresses := hsheet.marks.map _

namespace Workspace

variable {ws : Workspace}

/-- One sweep of a relaxation in a workspace. -/
theorem run_relaxFrom_succ (fuel begun : Nat) (previous : Option Sheet) :
    (relaxFrom p (fuel + 1) begun previous).run ws =
      (guarded (Sweep.run ⟨p, ws.base.toNat, ws.limits.maxOutputBytes.toNat, previous⟩
          p.nodeList) >>= fun sheet =>
        if Sheet.isSettled p.nodeList previous sheet then pure sheet
        else relaxFrom p fuel (begun + 1) (some sheet)).run { ws with passes := begun + 1 } := rfl

/-- Relaxation in a workspace goes as relaxation, and leaves the number of passes. -/
theorem runs_relaxFrom (ws : Workspace) (hp : p.Valid) (fuel begun : Nat) {previous' : Option Sheet}
    (hprevious : Option.Rel (Sheet.Shows p) previous' previous)
    (hsize : ∀ layout, previous = some layout → layout.placements.size = p.nodeList.length)
    (hpasses : ws.passes = begun) :
    Runs
      (fun ws' => ws' =
        { ws with passes := (p.relaxFrom ws.base ws.limits p.nodeList fuel begun previous).2 })
      (fun sheet ws' layout => sheet.Shows p layout ∧ ws' =
        { ws with passes := (p.relaxFrom ws.base ws.limits p.nodeList fuel begun previous).2 })
      ((relaxFrom p fuel begun previous').run ws)
      (p.relaxFrom ws.base ws.limits p.nodeList fuel begun previous).1 := by
  induction fuel generalizing begun previous previous' ws with
  | zero =>
    subst hpasses
    exact .error rfl
  | succ fuel ih =>
    have hsweep : (⟨p, ws.base.toNat, ws.limits.maxOutputBytes.toNat, previous'⟩ : Sweep).Shows
        (p.pass ws.base ws.limits previous) := ⟨rfl, rfl, rfl, hprevious⟩
    have hfollows := hsweep.follows_run hp hsize
    rw [run_relaxFrom_succ]
    generalize hswept : Sweep.run ⟨p, ws.base.toNat, ws.limits.maxOutputBytes.toNat, previous'⟩
      p.nodeList = swept
    generalize hrun : (p.pass ws.base ws.limits previous).run p.nodeList = laid
    have hfollows : Follows (Sheet.Shows p) swept laid := hswept ▸ hrun ▸ hfollows
    cases hfollows with
    | error herror =>
      subst herror
      rw [Program.relaxFrom_succ, hrun]
      exact .error rfl
    | @ok sheet layout hsheet =>
      have hsettled := hsheet.isSettled_eq hprevious p.nodeList
      rw [Program.relaxFrom_succ, hrun, EStateM.run_bind, run_guarded_ok]
      simp only [hsettled]
      -- a settled sheet is the result, and any other is what the next sweep goes by
      by_cases h : Program.isSettled p.nodeList previous layout
      · rw [if_pos h, if_pos h]
        exact .ok ⟨hsheet, rfl⟩
      · rw [if_neg h, if_neg h]
        obtain ⟨walk, extent, harrival⟩ := Pass.exists_arrival hrun
        refine ih { ws with passes := begun + 1 } (begun + 1) (.some hsheet) ?_ rfl
        rintro _ ⟨⟩
        exact harrival.size_placements

/-! ## The whole way -/

/-- The workspace holds what the assembler shows. -/
structure Shows (ws : Workspace) (a : Assembler) : Prop where
  limits_eq : ws.limits = a.limits
  code_eq : ws.code = a.image.code
  base_eq : ws.base = a.image.base
  label_eq : ∀ l, ws.labelAddress? l = a.labelAddress? l
  sections_eq : ws.sections = a.image.sections
  relocations_eq : ws.relocations = a.image.relocations
  passes_eq : ws.passes = a.passes

/-- A label is looked up in the array of addresses by its number. -/
theorem labelAddress?_eq {table : LabelTable UInt64} (h : p.Tabulates ws.labels table)
    (hfirst : ws.firstLabel = p.firstLabel) (l : Label) :
    ws.labelAddress? l = table.find? l := by
  unfold labelAddress?
  rw [hfirst]
  cases hl : p.labelIndex? l with
  | some i =>
    have hi := h.inside l i hl
    unfold Program.labelIndex? at hl
    split at hl
    · rename_i howns
      obtain rfl := Option.some.inj hl
      rw [if_pos howns.1, hi]
      rfl
    · cases hl
  | none =>
    rw [h.outside l hl]
    unfold Program.labelIndex? at hl
    split
    · rename_i hle
      -- a number behind the first that is not the program's lies behind the array
      have hge : ws.labels.size ≤ l.id.toNat - p.firstLabel.toNat := by
        rw [h.size_eq]
        by_contra hlt
        rw [if_pos ⟨hle, Nat.lt_of_not_le hlt⟩] at hl
        cases hl
      rw [Array.getElem?_eq_none hge]
      rfl
    · rfl

/-- With its labels known, a program is emitted as its layout is rendered. -/
theorem runs_emit_render (ws : Workspace) (hp : p.Valid)
    (hlayout : (p.relax ws.base limits).1 = .ok layout) (hsheet : sheet.Shows p layout)
    (hlabels : ws.labels = sheet.addresses) (hfirst : ws.firstLabel = p.firstLabel)
    (hsections : ws.sections = []) (hrelocations : ws.relocations = []) :
    Runs (Keeps ws) (fun _ ws' image => ws'.Shows ⟨ws.limits, image, ws.passes⟩)
      ((emit p sheet).run ws) (p.render ws.base layout) := by
  obtain ⟨n, previous, -, -, hrun, -, -⟩ := Program.relax_eq_ok hlayout
  obtain ⟨walk, extent, harrival⟩ := Pass.exists_arrival hrun
  obtain ⟨total, htotal⟩ := harrival.exists_total hsheet
  have hb : ws.Has ⟨p, ws.base, layout.addresses⟩ := ⟨rfl, hlabels ▸ hsheet.tabulates_addresses⟩
  have hitems := harrival.inSequence hp
  rw [← hsheet.placements_eq] at hitems
  have hemit := hb.runs_emit hsections hrelocations htotal hitems
  rw [hsheet.placements_eq] at hemit
  refine hemit.imp (fun _ h => h) fun _ ws' image himage => ?_
  obtain ⟨pieces, rfl, rfl⟩ := himage
  exact ⟨rfl, rfl, rfl, labelAddress?_eq hb.labels hfirst, rfl, rfl, rfl⟩

/-- The whole way through a workspace that holds nothing. -/
theorem runs_run (hp : p.Valid) (limits : Limits) (base : UInt64) :
    Runs (fun ws => ws.limits = limits ∧ ws.passes = (p.assemble base limits).2)
      (fun _ ws image => ws.Shows ⟨limits, image, (p.assemble base limits).2⟩)
      ((run p).run { withLimits limits with base }) (p.assemble base limits).1 := by
  unfold run
  cases hbound : p.checkBound with
  | error e =>
    rw [Program.assemble_eq_error_of_checkBound hbound]
    exact .error ⟨rfl, rfl⟩
  | ok _ =>
    have hassemble : p.assemble base limits =
        ((p.relax base limits).1 >>= p.render base, (p.relax base limits).2) := by
      rw [Program.assemble, hbound]
    rw [hassemble]
    have hrelax := runs_relaxFrom { withLimits limits with base } hp limits.maxPasses.toNat 0 .none
      (by simp) rfl
    refine (hrelax.imp ?_ fun _ _ _ h => h).bind fun sheet ws' layout hlayout h => ?_
    · rintro _ rfl
      exact ⟨rfl, rfl⟩
    · obtain ⟨hsheet, rfl⟩ := h
      -- emission starts with the labels and passes written and nothing else
      have hemit := runs_emit_render { withLimits limits with
        base
        passes := (p.relax base limits).2
        labels := sheet.addresses
        firstLabel := p.firstLabel } hp hlayout hsheet rfl rfl rfl rfl
      exact hemit.imp (fun ws h => ⟨h.limits_eq, h.passes_eq⟩) fun _ _ _ h => h

/-- Where nothing is left, what is held is what an assembler shows after a failure. -/
theorem IsClear.shows (h : ws.IsClear) {a : Assembler} (hlimits : ws.limits = a.limits)
    (himage : a.image = .empty) (hpasses : ws.passes = a.passes) : ws.Shows a := by
  obtain ⟨limits, _, passes⟩ := a
  subst himage
  refine ⟨hlimits, h.code_eq, h.base_eq, fun l => ?_, h.sections_eq, h.relocations_eq, hpasses⟩
  rw [h.label_eq]
  exact (LabelTable.find?_empty l).symm

/-- **Workspaces agree with assemblers.** A workspace, whatever it holds, reports for a valid
program what an assembler with the same limits reports, and then holds what that shows. -/
theorem assemble_agrees {a : Assembler} (h : ws.limits = a.limits) (hp : p.Valid) (base : UInt64) :
    (ws.assemble p base).1 = embed (a.assemble p base).1 ∧
      (ws.assemble p base).2.Shows (a.assemble p base).2 := by
  have hrun := runs_run hp a.limits base
  unfold Workspace.assemble Assembler.assemble reset
  rw [h]
  generalize (run p).run { withLimits a.limits with base } = result at hrun ⊢
  generalize p.assemble base a.limits = outcome at hrun ⊢
  obtain ⟨outcome, passes⟩ := outcome
  cases hrun with
  | ok hshows => exact ⟨rfl, hshows⟩
  | @error e ws h =>
    obtain ⟨hlimits, hpasses⟩ := h
    exact ⟨rfl, (ws.isClear_reset ws.passes).shows hlimits rfl hpasses⟩

/-- **No fault.** Whatever the mode, the instruction and the context are, an instruction is written
without a fault as it is encoded, to one to fifteen bytes with the label field within. And whatever
a workspace holds and may use, it assembles each program that can come about at each base without a
fault: it reports what an assembler reports and then holds what that shows. -/
theorem assemble_ne_fault (hp : p.Reachable) (ws : Workspace) (base : UInt64) :
    (∀ (mode : Mode) (i : Instruction) (ctx : Context),
      (∀ f, i.write mode ctx.site ≠ .error (.fault f)) ∧
      i.write mode ctx.site = embed (i.encode mode ctx) ∧
      ∀ e, i.encode mode ctx = .ok e → 1 ≤ e.bytes.length ∧ e.bytes.length ≤ 15 ∧
        ∀ f, e.fixup = some f → f.offset + f.width ≤ e.bytes.length) ∧
    (∀ f, (ws.assemble p base).1 ≠ .error (.fault f)) ∧
    (ws.assemble p base).1 = embed ((Assembler.withLimits ws.limits).assemble p base).1 ∧
    (ws.assemble p base).2.Shows ((Assembler.withLimits ws.limits).assemble p base).2 := by
  obtain ⟨hresult, hshows⟩ :=
    assemble_agrees (a := Assembler.withLimits ws.limits) rfl hp.valid base
  refine ⟨fun mode i ctx => ⟨fun f => ?_, i.write_eq mode ctx, fun e he => ?_⟩, fun f => ?_,
    hresult, hshows⟩
  · rw [i.write_eq]
    exact embed_ne_fault _ f
  · obtain ⟨hpos, hle⟩ := Instruction.length_bounds he
    refine ⟨hpos, hle, fun f hf => ?_⟩
    have hwithin := Instruction.field_within he hf
    omega
  · rw [hresult]
    exact embed_ne_fault _ f

/-- A loop at a low address is assembled without a fault. -/
theorem assembled_lowLoop_ne_fault :
    Program.lowLoop.Reachable ∧ ∃ ws, (withLimits {}).assemble Program.lowLoop 0x1000 =
      (.ok (), ws) ∧ ws.code.length = 6 := by
  have hok : ((Assembler.withLimits {}).assemble Program.lowLoop 0x1000).1 = .ok () := by
    decide +kernel
  have hsize :
      ((Assembler.withLimits {}).assemble Program.lowLoop 0x1000).2.image.code.length = 6 := by
    decide +kernel
  obtain ⟨-, -, hresult, hshows⟩ :=
    assemble_ne_fault Program.reachable_lowLoop (withLimits {}) 0x1000
  refine ⟨Program.reachable_lowLoop, _, Prod.ext (hresult.trans (congrArg embed hok)) rfl, ?_⟩
  exact (congrArg List.length hshows.code_eq).trans hsize

end Workspace

end X86Asm
