import QuadDsp.Proofs.Machine.Again

/-! # What words ask of the sequencer

A flow is asked for by one operation only, which stands alone in its word, and lane 0 decides whether it is
(`flow_of_execute`). All other operations, and all bundles, leave the sequencer to itself: their handlers are
`Quiet`. -/

namespace QuadDsp

/-- The operation that asks for it. -/
def Flow.opcode : Flow → Opcode
  | jump _ => .jump
  | call _ => .call
  | ret => .rts
  | loop .. => .loop
  | pushStatus => .push
  | popStatus => .pop
  | reset => .reset

/-- The operation asks the sequencer for something. -/
def Opcode.asks (op : Opcode) : Bool := op ∈ [.jump, .call, .rts, .loop, .push, .pop, .reset]

theorem Flow.asks_opcode (f : Flow) : f.opcode.asks = true := by
  cases f <;> rfl

/-- Whatever the effects are, the sequencer is asked for nothing. -/
def Quiet (x : Except ExecError Effects) : Prop := ∀ fx, x = .ok fx → fx.flow = none

namespace Quiet

theorem bind {α : Type} {x : Except ExecError α} {f : α → Except ExecError Effects} (h : ∀ a, Quiet (f a)) :
    Quiet (x >>= f) := by
  intro fx hfx
  obtain ⟨a, -, hfx⟩ := bind_eq_ok_iff.1 hfx
  exact h a fx hfx

theorem ok {fx : Effects} (h : fx.flow = none) : Quiet (.ok fx) := by
  rintro _ ⟨⟩
  exact h

theorem refuse (m : Member) : Quiet m.refuse := nofun

end Quiet

namespace Context

variable (cx : Context) (m : Member)

theorem quiet_binary : Quiet (cx.binary m) :=
  .bind fun _ => .bind fun _ => .bind fun _ => .ok rfl

theorem quiet_unary : Quiet (cx.unary m) :=
  .bind fun _ => .bind fun _ => .ok rfl

theorem quiet_clearReg : Quiet (clearReg m) := .bind fun _ => .ok rfl

theorem quiet_compare : Quiet (cx.compare m) := by
  refine .bind fun a => ?_
  split
  · exact .bind fun _ => .ok rfl
  · exact .bind fun _ => .ok rfl
  · exact .refuse m

theorem quiet_testBit : Quiet (cx.testBit m) :=
  .bind fun _ => .bind fun _ => .ok rfl

theorem quiet_divide : Quiet (cx.divide m) :=
  .bind fun _ => .bind fun _ => .bind fun _ => .bind fun _ => .ok rfl

theorem quiet_shift : Quiet (cx.shift m) := by
  refine .bind fun rd => .bind fun a => ?_
  split
  · exact .bind fun _ => .ok rfl
  · exact .bind fun _ => .ok rfl
  · exact .refuse m

theorem quiet_complexBinary : Quiet (cx.complexBinary m) := by
  refine .bind fun rd => .bind fun a => .bind fun b => ?_
  split
  · exact .ok rfl
  · exact .ok rfl
  · exact .refuse m

theorem quiet_complexMap (f : ComplexPair → ComplexResult) : Quiet (cx.complexMap m f) := by
  unfold complexMap
  split
  · exact .bind fun _ => .bind fun _ => .ok rfl
  · exact .refuse m

theorem quiet_complexUnary : Quiet (cx.complexUnary m) := by
  unfold complexUnary
  exact cx.quiet_complexMap m _

theorem quiet_convert : Quiet (cx.convert m) := by
  unfold convert
  exact cx.quiet_complexMap m _

theorem quiet_multiply : Quiet (cx.multiply m) := by
  refine .bind fun acc => .bind fun x => .bind fun y => ?_
  split
  · exact .bind fun _ => .bind fun _ => .bind fun _ => .ok rfl
  · unfold multiplyComplex
    split
    · exact .refuse m
    · exact .bind fun _ => .bind fun _ => .bind fun _ => .bind fun _ => .ok rfl
  · exact .refuse m

theorem quiet_accumulator : Quiet (cx.accumulator m) :=
  .bind fun _ => .bind fun _ => .ok rfl

theorem quiet_withAccess (writes : Reg → Nat → Except ExecError (List Write)) : Quiet (cx.withAccess m writes) :=
  fun _ hfx => (withAccess_writes hfx).1

theorem quiet_store : Quiet (cx.store m) := by
  unfold store
  exact cx.quiet_withAccess m _

theorem quiet_load : Quiet (cx.load m) := by
  unfold load
  split
  · exact .bind fun _ => .bind fun _ => .ok rfl
  · exact .bind fun _ => .bind fun _ => .ok rfl
  · split
    · exact .bind fun _ => .ok rfl
    · exact .refuse m
  · exact cx.quiet_withAccess m _

theorem quiet_move : Quiet (cx.move m) := by
  unfold move
  split
  case h_6 => exact .ok rfl
  case h_8 => exact .refuse m
  all_goals exact .bind fun _ => .ok rfl

theorem quiet_modify : Quiet (cx.modify m) :=
  .bind fun _ => .bind fun _ => .bind fun _ => .bind fun _ => .ok rfl

theorem quiet_mode : Quiet (mode m) := by
  unfold mode
  split
  · exact .ok rfl
  · exact .refuse m

theorem quiet_arithmetic : Quiet (ExecUnit.run.arithmetic cx m) := by
  unfold ExecUnit.run.arithmetic
  split
  · exact cx.quiet_complexBinary m
  · exact cx.quiet_binary m
  · exact cx.quiet_binary m
  · exact .refuse m

variable {cx m}

theorem exists_target_of_branch (hop : m.opcode ≠ .rts) {fx : Effects} (h : cx.branch m = .ok fx) :
    ∃ t, fx = cx.gated (if m.opcode = .call then .call t else .jump t) := by
  unfold branch at h
  generalize hasked : (fun t => cx.gated (if m.opcode = .call then .call t else .jump t)) = asked at h
  have hask (t : Nat) : asked t = cx.gated (if m.opcode = .call then .call t else .jump t) := by rw [← hasked]
  dsimp only at h
  split at h
  · next hrts _ => exact absurd hrts hop
  · split at h
    · obtain ⟨t, -, h⟩ := bind_eq_ok_iff.1 h
      cases h
      exact ⟨t, hask t⟩
    · cases h
  · obtain ⟨k, -, h⟩ := bind_eq_ok_iff.1 h
    obtain ⟨t, -, h⟩ := bind_eq_ok_iff.1 h
    cases h
    exact ⟨t, hask t⟩
  · cases h

theorem exists_of_branch (hop : m.opcode ∈ [.jump, .call, .rts]) (hshape : m.opcode = .rts → m.shape = .bare)
    {fx : Effects} (h : cx.branch m = .ok fx) : ∃ f : Flow, f.opcode = m.opcode ∧ fx = cx.gated f := by
  simp only [List.mem_cons, List.not_mem_nil, or_false] at hop
  rcases hop with hop | hop | hop
  · obtain ⟨t, rfl⟩ := exists_target_of_branch (by rw [hop]; decide) h
    exact ⟨.jump t, hop.symm, by rw [hop]; rfl⟩
  · obtain ⟨t, rfl⟩ := exists_target_of_branch (by rw [hop]; decide) h
    exact ⟨.call t, hop.symm, by rw [hop]; rfl⟩
  · unfold branch at h
    rw [hop, hshape hop] at h
    cases h
    exact ⟨.ret, hop.symm, rfl⟩

theorem exists_of_loop (hop : m.opcode = .loop) {fx : Effects} (h : cx.loop m = .ok fx) :
    ∃ f : Flow, f.opcode = m.opcode ∧ fx = cx.gated f := by
  unfold loop at h
  split at h
  · obtain ⟨last, -, h⟩ := bind_eq_ok_iff.1 h
    cases h
    exact ⟨.loop last _, hop.symm, rfl⟩
  · cases h

theorem exists_of_status {fx : Effects} (h : cx.status m = .ok fx) :
    ∃ f : Flow, f.opcode = m.opcode ∧ fx = cx.gated f := by
  unfold status at h
  split at h
  · next hop =>
    cases h
    exact ⟨.pushStatus, hop.symm, rfl⟩
  · next hop =>
    cases h
    exact ⟨.popStatus, hop.symm, rfl⟩
  · cases h

end Context

theorem FormatEntry.shape_of_rts : ∀ e ∈ formatEntries, e.opcode = .rts → e.shape = .bare := by
  decide +kernel

namespace ExecUnit

/-- The units that ask the sequencer for something. -/
def asks (u : ExecUnit) : Bool := u ∈ [.branch, .loop, .status, .reset]

variable {u : ExecUnit} (cx : Context) (m : Member)

theorem quiet_run (h : u.asks = false) : Quiet (u.run cx m) := by
  cases u with
  | branch | loop | status | reset => cases h
  | binary => exact cx.quiet_arithmetic m
  | unary =>
    simp only [run]
    split
    · exact cx.quiet_complexUnary m
    · exact cx.quiet_unary m
    · exact .refuse m
  | clear =>
    simp only [run]
    split
    · exact cx.quiet_accumulator m
    · exact Context.quiet_clearReg m
    · exact .refuse m
  | compare => exact cx.quiet_compare m
  | divide => exact cx.quiet_divide m
  | bits =>
    simp only [run]
    split
    · exact cx.quiet_testBit m
    · exact cx.quiet_arithmetic m
  | shift => exact cx.quiet_shift m
  | multiply => exact cx.quiet_multiply m
  | accumulator => exact cx.quiet_accumulator m
  | conjugate => exact cx.quiet_complexUnary m
  | convert => exact cx.quiet_convert m
  | load => exact cx.quiet_load m
  | store => exact cx.quiet_store m
  | move => exact cx.quiet_move m
  | modify => exact cx.quiet_modify m
  | mode => exact Context.quiet_mode m
  | idle => exact .ok rfl

end ExecUnit

namespace Opcode

variable {op : Opcode} {u : ExecUnit}

theorem asks_of_unit? (h : op.unit? = some u) : op.asks = u.asks := by
  cases op <;> cases h <;> rfl

theorem mem_of_branch (h : op.unit? = some .branch) : op ∈ [.jump, .call, .rts] := by
  cases op <;> first | decide | cases h

theorem eq_of_loop (h : op.unit? = some .loop) : op = .loop := by
  cases op <;> first | rfl | cases h

theorem eq_of_reset (h : op.unit? = some .reset) : op = .reset := by
  cases op <;> first | rfl | cases h

end Opcode

/-- An operation asks the sequencer for what its opcode says and does nothing else, or asks for nothing. -/
theorem Member.asks_of_execute {m : Member} {cx : Context} {fx : Effects} (hm : m.Fit) (h : m.execute cx = .ok fx) :
    (∃ f : Flow, f.opcode = m.opcode ∧ fx = cx.gated f) ∨ m.opcode.asks = false ∧ fx.flow = none := by
  obtain ⟨u, hunit, hrun⟩ := bind_eq_ok_iff.1 h
  have hunit : m.opcode.unit? = some u := eq_of_need hunit
  cases hasks : u.asks with
  | false => exact .inr ⟨(Opcode.asks_of_unit? hunit).trans hasks, ExecUnit.quiet_run cx m hasks fx hrun⟩
  | true =>
    refine .inl ?_
    cases u with
    | branch =>
      obtain ⟨e, he, hop, hshape⟩ := hm.listed
      have hrts (h : m.opcode = .rts) : m.shape = .bare := hshape ▸ e.shape_of_rts he (hop.trans h)
      exact Context.exists_of_branch (Opcode.mem_of_branch hunit) hrts hrun
    | loop => exact Context.exists_of_loop (Opcode.eq_of_loop hunit) hrun
    | status => exact Context.exists_of_status hrun
    | reset =>
      cases hrun
      exact ⟨.reset, (Opcode.eq_of_reset hunit).symm, rfl⟩
    | _ => cases hasks

theorem Opcode.asks_of_bundled : ∀ op ∈ [.ld, .st] ++ bundledAlu ++ bundledMac ++ bundledShift, op.asks = false := by
  decide

theorem asks_of_bundle {i : Instruction} {sel : Selection} (hs : select i = .ok sel)
    (hall : ∀ m ∈ sel.members, m.Bundled ∧ m.Coded) : i.opcode.asks = false := by
  obtain ⟨t, -, hfills⟩ := select_fills hs
  obtain ⟨m, hm, rfl⟩ := hfills.exists_head
  exact Opcode.asks_of_bundled _ ((hall m hm).1.opcode_mem (hall m hm).2)

/-- A word that asks the sequencer for something does nothing else, and lane 0 decides whether it asks. -/
theorem effects_of_execute {s : Core} {mem : Memory} {p : Program} {i : Instruction} {fx : Effects}
    (h : execute s mem p i = .ok fx) :
    (∃ f : Flow, f.opcode = i.opcode ∧
        fx = { mask := s.mask i.cond, flow := if s.holds i.cond .first then some f else none }) ∨
      i.opcode.asks = false ∧ fx.flow = none := by
  obtain ⟨hstructure, sel, hs, h⟩ := exists_selected_of_execute h
  rcases select_members hs with ⟨m, -, -, hmembers, rfl, -⟩ | ⟨hall, -⟩
  · -- a lone operation
    rw [hmembers] at h
    obtain ⟨fx', hfx', h⟩ := bind_eq_ok_iff.1 h
    cases h
    have hm : m.Fit := fit_of_select hs m (by rw [hmembers]; exact List.mem_singleton_self m)
    have hflow (o : Option Flow) : (o <|> none) = o := by cases o <;> rfl
    rcases Member.asks_of_execute hm hfx' with ⟨f, hop, rfl⟩ | ⟨hasks, hnone⟩
    · refine .inl ⟨f, hop, ?_⟩
      simp only [Effects.and, Context.gated, hflow, Core.mask, Lanes.ofFn_apply, List.append_nil]
    · exact .inr ⟨hasks, by simp only [Effects.and, hnone, hflow]⟩
  · -- a bundle, whose operations are those of a table
    refine .inr ⟨asks_of_bundle hs hall, ?_⟩
    have hfold := congrArg Except.toOption h
    rw [toOption_executeMembers, toOption_ok, Option.map_eq_some_iff] at hfold
    obtain ⟨l, hl, rfl⟩ := hfold
    refine Effects.flow_foldl_and fun fx' hfx' => ?_
    obtain ⟨m', hm', hrun⟩ := exists_left_of_forall₂ (mapM_eq_some_iff.1 hl) hfx'
    exact (Member.leaves_of_execute (hall m' hm').1 (hall m' hm').2 (toOption_eq_some_iff.1 hrun)).flow

/-- A word asks the sequencer for what its opcode says, where its condition holds in lane 0. -/
theorem flow_of_execute {s : Core} {mem : Memory} {p : Program} {i : Instruction} {fx : Effects}
    (h : execute s mem p i = .ok fx) :
    (∃ f : Flow, f.opcode = i.opcode ∧ fx.flow = if s.holds i.cond .first then some f else none) ∨
      i.opcode.asks = false ∧ fx.flow = none := by
  rcases effects_of_execute h with ⟨f, hop, rfl⟩ | hquiet
  · exact .inl ⟨f, hop, rfl⟩
  · exact .inr hquiet

theorem opcode_of_flow {s : Core} {mem : Memory} {p : Program} {i : Instruction} {fx : Effects} {f : Flow}
    (h : execute s mem p i = .ok fx) (hflow : fx.flow = some f) : i.opcode = f.opcode := by
  rcases flow_of_execute h with ⟨f', hop, hf⟩ | ⟨-, hnone⟩
  · rw [hflow] at hf
    split at hf
    · cases hf
      exact hop.symm
    · cases hf
  · cases hnone.symm.trans hflow

theorem Simulator.execute_of_flow {s : Core} {mem : Memory} {p : Program} {i : Instruction} {f : Flow}
    (hflow : (effects s mem p i).1.flow = some f) : ∃ fx, execute s mem p i = .ok fx ∧ fx.flow = some f := by
  unfold effects at hflow
  cases hexecute : execute s mem p i with
  | error e => rw [hexecute] at hflow; cases hflow
  | ok fx =>
    rw [hexecute] at hflow
    exact ⟨fx, rfl, hflow⟩

/-- A word that asks for a loop holds a DO and nothing else. -/
theorem Instruction.exists_of_loop {s : Core} {mem : Memory} {p : Program} {i : Instruction} {fx : Effects}
    (h : execute s mem p i = .ok fx) {last : Nat} {term : Condition} (hflow : fx.flow = some (.loop last term)) :
    i.opcode = .loop ∧ checkStructure i = .ok () ∧ ∃ sel m fx', select i = .ok sel ∧ sel.members = [m] ∧ m.instr = i ∧
      (⟨s, mem, p, s.mask i.cond⟩ : Context).loop m = .ok fx' ∧ fx'.flow = some (.loop last term) := by
  have hop : i.opcode = .loop := opcode_of_flow h hflow
  obtain ⟨hstructure, sel, hs, h⟩ := exists_selected_of_execute h
  rcases select_members hs with ⟨m, -, -, hm, rfl, -⟩ | ⟨hall, -⟩
  · rw [hm] at h
    have hunit : m.opcode.unit? = some .loop := by
      rw [show m.opcode = .loop from hop]
      rfl
    obtain ⟨fx', hfx', h⟩ := bind_eq_ok_iff.1 h
    cases h
    rw [Member.execute, hunit] at hfx'
    have hflow : (fx'.flow <|> none) = some (.loop last term) := hflow
    have hnone (o : Option Flow) : (o <|> none) = o := by cases o <;> rfl
    exact ⟨hop, hstructure, sel, m, fx', hs, hm, rfl, hfx', (hnone _).symm.trans hflow⟩
  · have hasks := asks_of_bundle hs hall
    rw [hop] at hasks
    cases hasks

end QuadDsp
