import X86Asm.Proofs.Image.Consistency
import X86Asm.Proofs.Image.Divergence
import X86Asm.Proofs.Layout.SizeLimit

/-!
# Limits

The limits of an assembler only say when it gives up. A pass looks at the limit on the size at the
end of each node and at nothing else, so a pass that succeeds arrives at the same layout under any
higher limit (`Pass.run_of_maxBytes_le`), and the passes of a relaxation are the same passes
(`Relaxing.of_limits`). Which of them settles does not depend on how many there may be.

So an image within some limits is also the image within higher ones, and it is not reached if there
may be fewer passes than it took (`Assembler.assemble_cutoff`).
-/

namespace X86Asm

variable {p : Program} {base : UInt64} {limits limits' : Limits} {n : Nat}
  {previous : Option Layout} {layout : Layout} {image : Image} {passes : Nat}

/-! ## A pass within other limits -/

namespace Pass

variable {pass : Pass} {nodes : List Node} {walk : Nat → Walk} {extent : Nat → Extent} {i k : Nat}

/-- A pass that succeeds arrives at the same layout under a higher limit. -/
theorem run_of_maxBytes_le {maxBytes : Nat} (hle : pass.maxBytes ≤ maxBytes)
    (h : pass.run nodes = .ok layout) : { pass with maxBytes }.run nodes = .ok layout := by
  have hfits : ¬ pass.Outgrows nodes := by
    intro houtgrows
    rw [run_of_outgrows houtgrows] at h
    cases h
  have hfits' : ¬ { pass with maxBytes }.Outgrows nodes := fun ⟨k, w, hw, hexceeds⟩ =>
    hfits ⟨k, w, hw, Nat.lt_of_le_of_lt hle hexceeds⟩
  -- neither limit has an effect
  rw [run_of_not_outgrows hfits']
  exact (run_of_not_outgrows hfits).symm.trans h

/-- What a pass places is within the limit. -/
theorem Trace.size_le (h : pass.Trace nodes k walk extent) (hi : i ≤ k) :
    (walk i).address - pass.base ≤ pass.maxBytes := by
  cases i with
  | zero =>
    rw [h.address_zero, Nat.sub_self]
    exact Nat.zero_le _
  | succ i =>
    obtain ⟨node, hn⟩ := h.node_eq hi
    rw [h.address_succ hi]
    exact (checkEnd_eq_ok (h.ends i node hi hn)).2

end Pass

/-! ## Relaxation within other limits -/

namespace Program

/-- A pass that succeeds within a limit on the size does so within a wider one. -/
theorem run_of_limits (hbytes : limits.maxOutputBytes ≤ limits'.maxOutputBytes)
    (h : (p.pass base limits previous).run p.nodeList = .ok layout) :
    (p.pass base limits' previous).run p.nodeList = .ok layout := by
  have hle : (p.pass base limits previous).maxBytes ≤ limits'.maxOutputBytes.toNat :=
    UInt64.le_iff_toNat_le.mp hbytes
  have hpass : p.pass base limits' previous =
      { p.pass base limits previous with maxBytes := limits'.maxOutputBytes.toNat } := rfl
  rw [hpass]
  exact Pass.run_of_maxBytes_le hle h

/-- The passes of a relaxation are passes of one within other limits that allow as many of them. -/
theorem Relaxing.of_limits (hbytes : limits.maxOutputBytes ≤ limits'.maxOutputBytes)
    (h : Relaxing p base limits n previous) (hn : n ≤ limits'.maxPasses.toNat) :
    Relaxing p base limits' n previous := by
  induction h with
  | start => exact .start
  | pass _ _ hrun hunsettled ih =>
    exact .pass (ih (Nat.le_of_succ_le hn)) hn (run_of_limits hbytes hrun) hunsettled

/-- A relaxation that settles does so after the same pass within other limits, unless they do not
allow so many passes. -/
theorem relax_cutoff (hbytes : limits.maxOutputBytes ≤ limits'.maxOutputBytes)
    (h : p.relax base limits = (.ok layout, passes)) :
    p.relax base limits' =
      if passes ≤ limits'.maxPasses.toNat then (.ok layout, passes)
      else (.error (.relaxationLimit limits'.maxPasses), limits'.maxPasses.toNat) := by
  obtain ⟨n, previous, hrelaxing, -, hrun, hsettled, heq⟩ := relax_eq_ok (congrArg Prod.fst h)
  obtain rfl : passes = n + 1 := congrArg Prod.snd (h.symm.trans heq)
  by_cases hn : n + 1 ≤ limits'.maxPasses.toNat
  · rw [if_pos hn]
    exact (hrelaxing.of_limits hbytes (Nat.le_of_succ_le hn)).relax_of_settled hn
      (run_of_limits hbytes hrun) hsettled
  · rw [if_neg hn]
    -- all the passes that there may be come before the one that settles
    obtain ⟨previous', hrelaxing'⟩ :
        ∃ previous', Relaxing p base limits limits'.maxPasses.toNat previous' := by
      rcases Nat.lt_or_eq_of_le (Nat.le_of_lt_succ (Nat.lt_of_not_le hn)) with hlt | heq
      · obtain ⟨previous', _, hrelaxing', -⟩ := hrelaxing.earlier hlt
        exact ⟨previous', hrelaxing'⟩
      · exact ⟨previous, heq ▸ hrelaxing⟩
    exact (hrelaxing'.of_limits hbytes (Nat.le_refl _)).relax_of_exhausted

/-- An image within some limits is the image within others, unless these do not allow as many
passes as it takes. -/
theorem assemble_of_limits (hbytes : limits.maxOutputBytes ≤ limits'.maxOutputBytes)
    (h : p.assemble base limits = (.ok image, passes)) :
    p.assemble base limits' =
      if passes ≤ limits'.maxPasses.toNat then (.ok image, passes)
      else (.error (.relaxationLimit limits'.maxPasses), limits'.maxPasses.toNat) := by
  have hbound := checkBound_of_ok h
  unfold assemble at h ⊢
  rw [hbound] at h ⊢
  obtain ⟨himage, hpasses⟩ := Prod.mk.inj h
  obtain ⟨layout, hlayout, hrender⟩ := bind_eq_ok_iff.mp himage
  have hcut := relax_cutoff hbytes (Prod.ext hlayout hpasses)
  simp only [hcut]
  split
  · exact Prod.ext hrender rfl
  · rfl

end Program

/-- **Limits.** An image is within the limits that it was made in, and limits decide nothing but
whether there is one: an assembler that may use at least as much, whatever it made before, makes the
same image in the same number of passes. One that may make fewer passes gives up after them. -/
theorem Assembler.assemble_cutoff {a a' : Assembler} (hp : p.Reachable)
    (h : a.assemble p base = (.ok (), a')) :
    a'.image.size ≤ a.limits.maxOutputBytes.toNat ∧ a'.passes ≤ a.limits.maxPasses.toNat ∧
      ∀ b : Assembler, a.limits.maxOutputBytes ≤ b.limits.maxOutputBytes →
        (a.limits.maxPasses ≤ b.limits.maxPasses →
          b.assemble p base = (.ok (), { a' with limits := b.limits })) ∧
        (b.limits.maxPasses.toNat < a'.passes →
          (b.assemble p base).1 = .error (.relaxationLimit b.limits.maxPasses)) := by
  obtain ⟨image, passes, himage, rfl⟩ := assemble_eq_ok h
  obtain ⟨n, previous, layout, pieces, hassembly, rfl⟩ := Program.assemble_eq_ok himage
  have hpasses : n + 1 ≤ a.limits.maxPasses.toNat := hassembly.lt_maxPasses
  refine ⟨?_, hpasses, fun b hbytes => ⟨fun hmore => ?_, fun hfewer => ?_⟩⟩
  · -- the last pass keeps the limit, and it ends where the image does
    obtain ⟨walk, extent, harrival⟩ := Pass.exists_arrival hassembly.run_eq
    have hsize := harrival.trace.size_le (Nat.le_refl _)
    rw [hassembly.address_end hp.valid harrival] at hsize
    rwa [show base.toNat + image.size - (p.pass base a.limits previous).base = image.size from
      Nat.add_sub_cancel_left ..] at hsize
  · have hcut := Program.assemble_of_limits hbytes himage
    rw [if_pos (Nat.le_trans hpasses (UInt64.le_iff_toNat_le.mp hmore))] at hcut
    unfold Assembler.assemble
    rw [hcut]
  · have hcut := Program.assemble_of_limits hbytes himage
    rw [if_neg (Nat.not_le.mpr hfewer)] at hcut
    unfold Assembler.assemble
    rw [hcut]

/-- `lowLoop` needs three passes, of which the first takes more than the six bytes of the image. -/
theorem Assembler.cutoff_lowLoop :
    Program.lowLoop.Reachable ∧
      ∃ a, (withLimits ⟨3, 11⟩).assemble Program.lowLoop 0x1000 = (.ok (), a) ∧ a.image.size = 6 ∧
        a.passes = 3 ∧
        (withLimits {}).assemble Program.lowLoop 0x1000 = (.ok (), { a with limits := {} }) ∧
        ((withLimits ⟨2, 11⟩).assemble Program.lowLoop 0x1000).1 = .error (.relaxationLimit 2) := by
  have hok : ((withLimits ⟨3, 11⟩).assemble Program.lowLoop 0x1000).1 = .ok () := by
    decide +kernel
  obtain ⟨-, -, hother⟩ := Assembler.assemble_cutoff Program.reachable_lowLoop (Prod.ext hok rfl)
  exact ⟨Program.reachable_lowLoop, _, Prod.ext hok rfl, by decide +kernel, by decide +kernel,
    (hother (withLimits {}) (by decide)).1 (by decide),
    (hother (withLimits ⟨2, 11⟩) (by decide)).2 (by decide +kernel)⟩

end X86Asm
