import QuadDsp.Proofs.Machine.Rounds

/-! # The words that begin a loop

A counted loop begins with a load of the loop counter and a DO. Both words are accepted, whatever else the instruction
holds, the load puts its number into the loop counter (`Simulator.loads`), and the DO puts a frame with this number on
the loop stacks (`Simulator.begins`). -/

namespace QuadDsp

namespace Instruction

/-- LD of a number into the loop counter, without a condition. -/
structure LoadsCounter (i : Instruction) (n : Nat) : Prop where
  opcode : i.opcode = .ld
  operands : i.operands = [.sys .counter, .imm n]
  cond : i.cond = .always
  alone : i.siblings = []

/-- DO up to an address UNTIL CE, without a condition. -/
structure LoopsUntilCe (i : Instruction) (p : Program) (last : Nat) : Prop where
  opcode : i.opcode = .loop
  operands : ∃ t, i.operands = [.target t, .cond .ce] ∧ p.targetAddr t = .ok last
  cond : i.cond = .always
  alone : i.siblings = []

variable {i : Instruction} {n last : Nat} {p : Program}

namespace LoadsCounter

variable (h : i.LoadsCounter n)

include h

theorem operand? (k : Nat) :
    (⟨.op, i, .sysImm, none⟩ : Member).operand? (.nth k) = [Operand.sys .counter, .imm n][k]? := by
  rw [Member.operand?, Member.nth?, h.operands]
  rfl

theorem select (hn : n < 0x10000) :
    QuadDsp.select i = .ok ⟨.ldiSys, 0x22, i, [⟨.op, i, .sysImm, none⟩]⟩ := by
  have hclassify : Shape.classify i = .ok (.sysImm, none) := by
    rw [Shape.classify, h.operands]
    rfl
  have hcheck : (⟨.op, i, .sysImm, none⟩ : Member).checkOperands = .ok () := by
    unfold Member.checkOperands
    simp only [Member.opcode, h.opcode, h.operand?]
    rfl
  have hfits : Sign.either.fits n 16 = true := by
    have hlow : (span (16 - 1) : Int) = 32768 := rfl
    have hhigh : (span 16 : Int) = 65536 := rfl
    simp only [Sign.fits, hlow, hhigh, Bool.and_eq_true, decide_eq_true_eq]
    omega
  rw [QuadDsp.select, h.alone, List.isEmpty_nil, if_pos rfl]
  refine selectSingle_eq_ok_iff.2 ⟨⟨.op, i, .sysImm, none⟩, ⟨.ld, .sysImm, .ldiSys, 0x22⟩, by decide, rfl,
    ⟨hclassify, rfl⟩, ⟨rfl, rfl, fun _ => h.opcode⟩, hcheck, rfl, fun _ => h.cond,
    Selection.validate_eq_ok_iff.2 fun f hf => ?_⟩
  simp only [FormatId.layout, List.mem_cons, List.not_mem_nil, or_false] at hf
  rcases hf with rfl | rfl | rfl | rfl
  · exact ⟨_, rfl⟩
  · have hvalue : (Layout.op .sys 0 4).memberValue ⟨.op, i, .sysImm, none⟩ = .ok SysReg.counter.code := by
      have harg : (⟨.op, i, .sysImm, none⟩ : Member).operand? (Layout.op .sys 0 4).arg = some (.sys .counter) :=
        h.operand? 0
      simp only [Field.memberValue, Layout.op] at harg ⊢
      rw [harg]
    rw [Selection.fieldValue_of_member? (m := ⟨.op, i, .sysImm, none⟩) rfl rfl rfl, hvalue]
    exact ⟨_, rfl⟩
  · have hvalue := Field.memberValue_of_fits (f := Layout.imm 1 16 .either) rfl (h.operand? 1) hfits
    rw [Selection.fieldValue_of_member? (m := ⟨.op, i, .sysImm, none⟩) rfl rfl rfl, hvalue]
    exact ⟨_, rfl⟩
  · exact ⟨_, rfl⟩

theorem counter_committed (hn : n < 0x10000) (sim : Simulator) : (sim.committed i).1.counter = n := by
  have hstructure : checkStructure i = .ok () := by rw [checkStructure, h.alone]
  have himm : (⟨.op, i, .sysImm, none⟩ : Member).imm? 1 = some (n : Int) := by
    rw [Member.imm?, h.operand?]
    rfl
  have hwrite (v : Int) : (⟨.op, i, .sysImm, none⟩ : Member).loadWrite? v = some (.sys .counter v) := by
    rw [Member.loadWrite?, h.operands]
  have hexecute := Member.executeMembers_of_load ⟨.op, i, .sysImm, none⟩ h.opcode
    (List.mem_cons_of_mem _ (List.mem_cons_of_mem _ List.mem_cons_self))
    ⟨sim.core, sim.mem, sim.program, sim.core.mask .always⟩
  rw [himm, Option.bind_some, hwrite, Option.map_some] at hexecute
  rw [Simulator.committed, Simulator.fst_effects, execute_of_selected hstructure (h.select hn), h.cond, hexecute]
  rw [Option.getD_some, Effects.commit_write, Core.apply, if_pos (by rw [Core.mask_always]; rfl)]
  have hlow : (span 16 : Int) = 65536 := rfl
  rw [Core.setSys, lowBits_of_wrap (by decide), lowBits, hlow]
  dsimp only
  omega

end LoadsCounter

theorem LoopsUntilCe.select (h : i.LoopsUntilCe p last) :
    QuadDsp.select i = .ok ⟨.loop, 0x7C, i, [⟨.op, i, .targetCond, none⟩]⟩ := by
  obtain ⟨hop, ⟨t, hoperands, -⟩, hcond, halone⟩ := h
  obtain ⟨_, _, _, _, _, _, condition, _, _, _, _, _, _⟩ := i
  subst hop hoperands halone
  obtain rfl | rfl : condition = none ∨ condition = some .always := by
    cases condition with
    | none => exact .inl rfl
    | some c => exact .inr (congrArg some hcond)
  · rfl
  · rfl

theorem LoopsUntilCe.effects (h : i.LoopsUntilCe p last) (s : Core) (mem : Memory) :
    (Simulator.effects s mem p i).1 = { flow := some (.loop last .ce) } := by
  have hstructure : checkStructure i = .ok () := by rw [checkStructure, h.alone]
  obtain ⟨t, hoperands, htarget⟩ := h.operands
  have hunit : (⟨.op, i, .targetCond, none⟩ : Member).opcode.unit? = some .loop := by
    rw [Member.opcode, h.opcode]
    rfl
  have hrun : (⟨.op, i, .targetCond, none⟩ : Member).execute ⟨s, mem, p, s.mask .always⟩ =
      .ok { flow := some (.loop last .ce) } := by
    rw [Member.execute, hunit]
    show Context.loop _ _ = _
    rw [Context.loop, hoperands]
    dsimp only
    rw [Context.target, htarget]
    rfl
  rw [Simulator.fst_effects, execute_of_selected hstructure h.select, h.cond, executeMembers, hrun]
  rfl

theorem LoadsCounter.reran (h : i.LoadsCounter n) {j : Instruction} (hij : i.Reran j) : j.LoadsCounter n := by
  rw [hij]
  exact ⟨h.opcode, h.operands, h.cond, h.alone⟩

theorem LoopsUntilCe.reran (h : i.LoopsUntilCe p last) {j : Instruction} (hij : i.Reran j) {q : Program}
    (hpq : p.Ran q) : j.LoopsUntilCe q last := by
  obtain ⟨t, hoperands, htarget⟩ := h.operands
  rw [hij]
  exact ⟨h.opcode, ⟨t, hoperands, (Program.targetAddr_congr hpq.symbols t).trans htarget⟩, h.cond, h.alone⟩

end Instruction

namespace Simulator

variable {start sim : Simulator} {frames : List LoopFrame} {i : Instruction} {n last idx : Nat}

theorem loads (hload : i.LoadsCounter n) (hn : n < 0x10000)
    (hi : start.program.instrs[idx]? = some i) (hdue : start.NothingDue i)
    (hne : ∀ f, frames.head? = some f → f.last ≠ i.programAddr) (hcounted : ∀ f ∈ frames, f.Counted start.program)
    (hstands : start.Stands frames (some idx) sim) :
    sim.Walks sim.step (once i.programAddr (i.programAddr + 1)) ∧
      start.Stands frames (start.program.nextWord? idx) sim.step ∧ sim.step.core.counter = n := by
  obtain ⟨j, hcurrent, hij⟩ := hstands.exists_current hi
  have hload' : j.LoadsCounter n := hload.reran hij
  have hasked : sim.asked j = none := asked_of_asks (by rw [hload'.opcode]; rfl)
  have hdue' : start.NothingDue j := by rw [hij]; exact hdue
  have hstep := hstands.step_of_asked_none hcurrent hasked hdue' hcounted
  rw [hij.programAddr, LoopFrame.countRound_of_ne hne] at hstep
  refine ⟨hstep.1, hstep.2, ?_⟩
  rw [hstands.core_step hdue' hcurrent hasked (by rw [hij.programAddr]; exact hne)]
  exact hload'.counter_committed hn sim

theorem begins (hloop : i.LoopsUntilCe start.program last)
    (hi : start.program.instrs[idx]? = some i) (hdue : start.NothingDue i) (hlast : last ≠ i.programAddr)
    (hroom : ∀ t ∈ start.core.loops.states, frames.length < t.depth)
    (hcounted : ∀ f ∈ (⟨addrBehind i.programAddr 1, last, sim.core.counter, false⟩ : LoopFrame) :: frames,
      f.Counted start.program)
    (hstands : start.Stands frames (some idx) sim) :
    sim.Walks sim.step (once i.programAddr (i.programAddr + 1)) ∧
      start.Stands (⟨addrBehind i.programAddr 1, last, sim.core.counter, false⟩ :: frames) (start.program.nextWord? idx)
        sim.step := by
  obtain ⟨j, hcurrent, hij⟩ := hstands.exists_current hi
  have heffects := (hloop.reran hij hstands.ran).effects sim.core sim.mem
  have hasked : sim.asked j = some (.loop last .ce) := congrArg (·.flow) heffects
  have hcommitted : (sim.committed j).1 = sim.core := by
    rw [committed, heffects]
    rfl
  have hloops : sim.core.loops = start.core.loops.holding frames := congrArg (·.2.1) hstands.sequencing
  have hfollowed : sim.controller.followed (sim.committed j).1 j (sim.asked j) =
      ({ sim.core with
          loops := start.core.loops.holding
            (⟨addrBehind i.programAddr 1, last, sim.core.counter, false⟩ :: frames) }, none) := by
    rw [hasked, hcommitted, ← LoopStacks.push_holding hroom, ← hloops, ← hij.programAddr]
    rfl
  have hs := hstands.sequencing
  simp only [Core.sequencing, Prod.mk.injEq] at hs
  have hstep := hstands.step hcurrent hfollowed (by rw [Core.sequencing, hs.1, hs.2.2.1, hs.2.2.2]) hcounted
    (by rw [hij]; exact hdue) (by rw [hasked]; rintro ⟨⟩)
  rw [hij.programAddr, LoopFrame.countRound_of_ne (by rintro f ⟨⟩; exact hlast)] at hstep
  exact hstep

end Simulator

end QuadDsp
