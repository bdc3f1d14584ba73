import X86Asm.Proofs.Image.Consistency
import X86Asm.Proofs.Image.Divergence
import X86Asm.Proofs.Layout.SizeLimit

/-!
# The limit on the size of the output

What an assembler compares with the limit on the size is not the size of the image but what the
first pass of relaxation makes room for, where jumps to labels ahead are still near
(`Assembler.limitExceeded_iff`). The first pass takes at least as much as the image, and the near
jumps and the gaps bound how much more it takes. So an assembler turns images down that are within
the limit (`Assembler.refuses_hop`), but only those for which the limit leaves no such room, and
none that relaxation arrives at in two passes.
-/

namespace X86Asm

variable {p : Program} {base : UInt64} {limits : Limits} {e : Error} {image : Image} {passes : Nat}

namespace Program

/-- The labels are bound, and the first pass outgrows the limit on the size. -/
def IsOversized (p : Program) (base : UInt64) (limits : Limits) : Prop :=
  p.checkBound = .ok () ∧ p.Outgrows base limits

/-- A program whose first pass outgrows the limit is refused after it. -/
theorem assemble_of_oversized (h : p.IsOversized base limits) :
    p.assemble base limits =
      (.error (.limitExceeded "output bytes" limits.maxOutputBytes), 1) := by
  obtain ⟨hbound, houtgrows⟩ := h
  unfold assemble
  rw [hbound, relax_of_outgrows houtgrows]
  rfl

/-- If the first pass does not outgrow the limit, the limit has no effect on the image. -/
theorem assemble_of_not_oversized (hp : p.Valid) (h : ¬ p.IsOversized base limits) :
    p.assemble base limits = p.assemble base limits.unbounded := by
  unfold assemble
  cases hbound : p.checkBound with
  | error e => rfl
  | ok _ => rw [relax_of_not_outgrows hp fun houtgrows => h ⟨hbound, houtgrows⟩]

/-- Without a limit on the size nothing fails for its size. -/
theorem isLimit_of_assemble_unbounded (hp : p.Valid)
    (h : (p.assemble base limits.unbounded).1 = .error e) : e.isLimit = false := by
  rcases assemble_eq_error h with hbound | ⟨-, hrelax | ⟨layout, hrelax, hrender⟩⟩
  · exact Error.isLimit_of_isAboutNode (checkBound_error hbound)
  · exact isLimit_of_relax_unbounded hrelax
  · obtain ⟨n, previous, hrelaxing, -, hrun, -⟩ := relax_eq_ok hrelax
    obtain ⟨walk, extent, harrival⟩ := Pass.exists_arrival hrun
    exact Error.isLimit_of_isAboutNode (render_error hrelaxing hp harrival hrender)

/-- Only a program whose first pass outgrows the limit is refused for its size. -/
theorem assemble_eq_limitExceeded_iff (hp : p.Valid) {resource : String} {max : UInt64} :
    (p.assemble base limits).1 = .error (.limitExceeded resource max) ↔
      p.IsOversized base limits ∧ resource = "output bytes" ∧ max = limits.maxOutputBytes := by
  constructor
  · intro h
    by_cases hoversized : p.IsOversized base limits
    · rw [assemble_of_oversized hoversized] at h
      cases h
      exact ⟨hoversized, rfl, rfl⟩
    · rw [assemble_of_not_oversized hp hoversized] at h
      cases isLimit_of_assemble_unbounded hp h
  · rintro ⟨hoversized, rfl, rfl⟩
    rw [assemble_of_oversized hoversized]

/-- How the size of the image compares with what the first pass takes. -/
theorem exists_draftSize_of_assemble (hp : p.Valid)
    (h : p.assemble base limits.unbounded = (.ok image, passes)) :
    ∃ first, p.draftSize? base = some first ∧ image.size ≤ first ∧
      first ≤ image.size + 4 * p.jumps + p.capacity ∧ (passes ≤ 2 → first = image.size) := by
  obtain ⟨n, previous, layout, pieces, hassembly, rfl⟩ := assemble_eq_ok h
  obtain ⟨walk, extent, harrival⟩ := Pass.exists_arrival hassembly.run_eq
  obtain ⟨first, hfirst, hle, hge⟩ := hassembly.relaxing.exists_draftSize hp harrival
  have hend := hassembly.address_end hp harrival
  refine ⟨first, hfirst, by omega, by omega, fun hpasses => ?_⟩
  have hdraft := hassembly.relaxing.draftSize?_of_settled (Nat.le_of_succ_le_succ hpasses) harrival
    hassembly.settled
  have heq : first = (walk p.nodeList.length).address - base.toNat :=
    Option.some.inj (hfirst.symm.trans hdraft)
  omega

/-- An image that exists is turned down exactly if the first pass takes more than the limit. -/
theorem isOversized_iff_of_assemble (h : p.assemble base limits.unbounded = (.ok image, passes))
    {first : Nat} (hfirst : p.draftSize? base = some first) :
    p.IsOversized base limits ↔ limits.maxOutputBytes.toNat < first := by
  obtain ⟨n, previous, layout, pieces, hassembly, -⟩ := assemble_eq_ok h
  have hpasses : 0 < limits.maxPasses.toNat := Nat.zero_lt_of_lt hassembly.lt_maxPasses
  rw [IsOversized, outgrows_iff_of_draftSize hfirst]
  exact ⟨fun ⟨_, _, hlt⟩ => hlt, fun hlt => ⟨checkBound_of_ok h, hpasses, hlt⟩⟩

end Program

/-- The assembler without a limit on the size. -/
def Assembler.unbounded (a : Assembler) : Assembler := { a with limits := a.limits.unbounded }

/-- An assembler does what one with other limits does if the program has the same image in both. -/
theorem Assembler.assemble_congr_limits {a : Assembler} {limits : Limits}
    (h : p.assemble base a.limits = p.assemble base limits) :
    a.assemble p base =
      (({ a with limits }.assemble p base).1,
        { ({ a with limits }.assemble p base).2 with limits := a.limits }) := by
  unfold assemble
  rw [h]
  simp only
  split <;> rfl

/-- **Size limit.** Assembling a reachable program fails for its size exactly if its labels are
bound and the first pass comes to more bytes than the limit. In all other cases it does what it does
without a limit, where it never fails for its size. If there is an image without a limit, the first
pass gets to the end, and the limit is compared with the size that it comes to there and not with
that of the image. The two are the same if there are at most two passes, and they differ by no more
than four bytes for each jump and the capacity of the gaps. -/
theorem Assembler.limitExceeded_iff {a : Assembler} (hp : p.Reachable) :
    (∀ resource max, (a.assemble p base).1 = .error (.limitExceeded resource max) ↔
      p.IsOversized base a.limits ∧ resource = "output bytes" ∧ max = a.limits.maxOutputBytes) ∧
    (¬ p.IsOversized base a.limits →
      a.assemble p base = ((a.unbounded.assemble p base).1,
        { (a.unbounded.assemble p base).2 with limits := a.limits })) ∧
    (∀ resource max, (a.unbounded.assemble p base).1 ≠ .error (.limitExceeded resource max)) ∧
    ∀ b, a.unbounded.assemble p base = (.ok (), b) →
      ∃ first, p.draftSize? base = some first ∧ b.image.size ≤ first ∧
        first ≤ b.image.size + 4 * p.jumps + p.capacity ∧
        (b.passes ≤ 2 → first = b.image.size) ∧
        (first ≤ a.limits.maxOutputBytes.toNat →
          a.assemble p base = (.ok (), { b with limits := a.limits })) ∧
        (a.limits.maxOutputBytes.toNat < first →
          (a.assemble p base).1 =
            .error (.limitExceeded "output bytes" a.limits.maxOutputBytes)) := by
  have hkept (h : ¬ p.IsOversized base a.limits) :
      a.assemble p base = ((a.unbounded.assemble p base).1,
        { (a.unbounded.assemble p base).2 with limits := a.limits }) :=
    assemble_congr_limits (Program.assemble_of_not_oversized hp.valid h)
  refine ⟨fun resource max => ?_, hkept, fun resource max h => ?_, fun b hb => ?_⟩
  · rw [assemble_eq_error_iff, Program.assemble_eq_limitExceeded_iff hp.valid]
  · cases Program.isLimit_of_assemble_unbounded hp.valid (assemble_eq_error_iff.mp h)
  · obtain ⟨image, passes, himage, rfl⟩ := assemble_eq_ok hb
    obtain ⟨first, hfirst, hle, hge, hsame⟩ :=
      Program.exists_draftSize_of_assemble hp.valid himage
    have hoversized := Program.isOversized_iff_of_assemble himage hfirst
    refine ⟨first, hfirst, hle, hge, hsame, fun hfits => ?_, fun hlt => ?_⟩
    · rw [hkept (mt hoversized.mp (Nat.not_lt.mpr hfits)), hb]
    · rw [assemble_eq_error_iff, Program.assemble_of_oversized (hoversized.mpr hlt)]

/-- A jump to the place behind it. -/
def Program.hop : Program :=
  [.createLabel, .emit (.instruction ⟨.jmp, [.label ⟨0⟩]⟩), .emit (.label ⟨0⟩)].foldl
    Operation.apply (Program.empty .long64)

/-- The jump is put together by operations. -/
theorem Program.reachable_hop : Program.hop.Reachable := by
  refine Program.reachable_foldl .long64 fun op hop => ?_
  simp only [List.mem_cons, List.not_mem_nil, or_false] at hop
  rcases hop with rfl | rfl | rfl <;> trivial

/-- The first pass takes five bytes for `hop`, and the image has two of them. -/
theorem Assembler.limitExceeded_hop :
    Program.hop.Reachable ∧
      ∃ b, (withLimits ⟨64, 2⟩).unbounded.assemble Program.hop 0 = (.ok (), b) ∧
        b.image.size = 2 ∧ b.passes = 3 ∧ Program.hop.draftSize? 0 = some 5 ∧
        ((withLimits ⟨64, 2⟩).assemble Program.hop 0).1 =
          .error (.limitExceeded "output bytes" 2) := by
  have hok : ((withLimits ⟨64, 2⟩).unbounded.assemble Program.hop 0).1 = .ok () := by
    decide +kernel
  obtain ⟨-, -, -, himage⟩ :=
    @limitExceeded_iff Program.hop 0 (withLimits ⟨64, 2⟩) Program.reachable_hop
  obtain ⟨first, hfirst, -, -, -, -, hlimit⟩ := himage _ (Prod.ext hok rfl)
  have hfive : Program.hop.draftSize? 0 = some 5 := by decide +kernel
  obtain rfl : first = 5 := Option.some.inj (hfirst.symm.trans hfive)
  exact ⟨Program.reachable_hop, _, Prod.ext hok rfl, by decide +kernel, by decide +kernel, hfive,
    hlimit (by decide)⟩

/-- Not every image that is within the limit is made: the two bytes of `hop` are turned down by an
assembler that may use two. -/
theorem Assembler.refuses_hop :
    ¬ ∀ (a : Assembler) (p : Program) (base : UInt64), p.Reachable →
      ∀ b, a.unbounded.assemble p base = (.ok (), b) →
        b.image.size ≤ a.limits.maxOutputBytes.toNat → (a.assemble p base).1 = .ok () := by
  intro hmade
  have hok : ((withLimits ⟨64, 2⟩).unbounded.assemble Program.hop 0).1 = .ok () := by
    decide +kernel
  have hresult := hmade (withLimits ⟨64, 2⟩) Program.hop 0 Program.reachable_hop _
    (Prod.ext hok rfl) (by decide +kernel)
  have hrefused : ((withLimits ⟨64, 2⟩).assemble Program.hop 0).1 ≠ .ok () := by decide +kernel
  exact hrefused hresult

end X86Asm
