import QuadDsp.Proofs.Machine.Storing

/-! # Accesses at fault

An access is checked before anything is committed, and what the check lets through is in memory: committing the effects
of a word finds no fault of its own. A load or store at fault is reported once, and only its access is skipped. Its
index register is stepped, and the other operations of the word do what they do anyway (`Simulator.skips_access`). -/

namespace QuadDsp

/-- The fault of the access that an operation makes. -/
def Member.fault? (m : Member) (cx : Context) : Option AddressError :=
  match m.mem?, m.dataReg? with
  | some ref, some r =>
    if m.opcode ∈ [Opcode.ld, .st] then
      (cx.access ref.mode).toOption.bind fun a => cx.accessFault? a.addr (r.cls == .complex)
    else none
  | _, _ => none

/-- What is written is there, so writing it is no fault. -/
theorem Effects.InBounds.commit {fx : Effects} {mem : Memory} (h : fx.InBounds mem) (s : Core) :
    (commit s mem fx).2.2 = [] := by
  refine List.filterMap_eq_nil_iff.2 fun w hw => ?_
  have hin := h w hw
  cases w with
  | mem addr v =>
    have hlt : addr < mem.size := hin
    rw [Memory.writeFault?, Memory.fault?, if_pos hlt]
    rfl
  | _ => rfl

theorem Effects.faults_foldl_and (fx : Effects) (l : List Effects) :
    (l.foldl and fx).faults = fx.faults ++ l.flatMap Effects.faults := by
  induction l generalizing fx with
  | nil => exact (List.append_nil _).symm
  | cons other rest ih => rw [List.foldl_cons, ih, List.flatMap_cons, and, List.append_assoc]

/-! ### Operations -/

namespace Member

variable {m : Member} {cx : Context} {fx : Effects}

/-- The effects report the fault of the access that the operation makes, and nothing else. -/
def Reports (m : Member) (cx : Context) (fx : Effects) : Prop := fx.faults = (m.fault? cx).toList.map .address

theorem fault?_of_access (hop : m.opcode ∈ [Opcode.ld, .st]) {ref : MemRef} (href : m.mem? = some ref) {r : Reg}
    (hr : m.dataReg? = some r) {a : Access} (ha : cx.access ref.mode = .ok a) :
    m.fault? cx = cx.accessFault? a.addr (r.cls == .complex) := by
  simp only [fault?, href, hr, if_pos hop, ha, Except.toOption, Option.bind_some]

theorem fault?_of_opcode (hop : m.opcode ∉ [Opcode.ld, .st]) : m.fault? cx = none := by
  unfold fault?
  split
  · exact if_neg hop
  · rfl

theorem Fit.exists_access (hm : m.Fit) (hop : m.opcode ∈ [Opcode.ld, .st]) {ref : MemRef} (href : m.mem? = some ref)
    (h : m.execute cx = .ok fx) : ∃ a, cx.access ref.mode = .ok a := by
  obtain ⟨writes, hwrites⟩ : ∃ writes, m.execute cx = cx.withAccess m writes := by
    rcases List.mem_pair.1 hop with hop | hop
    · exact ⟨_, hm.execute_of_ld hop href cx⟩
    · exact ⟨_, execute_of_st hop cx⟩
  obtain ⟨-, ref', r, a, href', -, ha, -⟩ := Context.withAccess_writes (hwrites.symm.trans h)
  cases href.symm.trans href'
  exact ⟨a, ha⟩

theorem Fit.reports (hm : m.Fit) (hop : m.opcode ∈ [Opcode.ld, .st]) {ref : MemRef} (href : m.mem? = some ref)
    {a : Access} (ha : cx.access ref.mode = .ok a) (h : m.execute cx = .ok fx) : m.Reports cx fx := by
  obtain ⟨r, hr, hmakes⟩ := hm.makes hop href ha
  rw [Reports, fault?_of_access hop href hr ha]
  split at hmakes
  · next e he =>
    cases h.symm.trans hmakes
    rw [he]
    rfl
  · next he =>
    obtain ⟨ws, -, -, hfx⟩ := hmakes
    cases h.symm.trans hfx
    rw [he]
    rfl

theorem Bundled.isTransfer_iff (hm : m.Bundled) (hcoded : m.Coded) :
    m.role.isTransfer = true ↔ m.opcode ∈ [Opcode.ld, .st] := by
  constructor
  · intro hrole
    have hop := hm.takes.opcode
    cases h : m.role with
    | ld | ld2 | st =>
      rw [h] at hop
      rw [hop rfl]
      decide
    | _ => rw [h] at hrole; cases hrole
  · intro hop
    rcases List.mem_pair.1 hop with hop | hop
    · rcases hm.role_of_ld hcoded hop with hrole | hrole <;> (rw [hrole]; rfl)
    · rw [hm.role_of_st hcoded hop]
      rfl

/-- The operations of a bundle report faults of accesses only. -/
theorem Bundled.reports (hm : m.Bundled) (hcoded : m.Coded) (hfit : m.Fit) (h : m.execute cx = .ok fx) :
    m.Reports cx fx := by
  by_cases hop : m.opcode ∈ [Opcode.ld, .st]
  · obtain ⟨space, n, k, href⟩ := hm.post ((hm.isTransfer_iff hcoded).2 hop)
    obtain ⟨a, ha⟩ := hfit.exists_access hop href h
    exact hfit.reports hop href ha h
  · rw [Reports, fault?_of_opcode hop]
    have htransfer := mt (hm.isTransfer_iff hcoded).1 hop
    cases hrole : m.role with
    | op => exact absurd hrole hm.role
    | alu =>
      obtain ⟨rd, x, y, -, rfl⟩ := exists_of_alu hm hcoded hrole h
      rfl
    | mac =>
      obtain ⟨acc, v, rfl, -⟩ := exists_of_mac hm hcoded hrole h
      rfl
    | shf =>
      obtain ⟨rd, v, -, rfl⟩ := exists_of_shf hm hcoded hrole h
      rfl
    | ld | ld2 | st => exact absurd (by rw [hrole]; rfl) htransfer

end Member

/-! ### Words -/

/-- The operations of a word report their faults one behind the other. -/
theorem flatMap_faults {cx : Context} {ms : List Member} {l : List Effects}
    (h : List.Forall₂ (fun (m : Member) fx => m.Reports cx fx) ms l) :
    l.flatMap Effects.faults = (ms.filterMap (·.fault? cx)).map .address := by
  induction h with
  | nil => rfl
  | @cons m fx ms l hm _ ih =>
    rw [List.flatMap_cons, ih, hm, List.filterMap_cons]
    cases m.fault? cx <;> rfl

/-- An access writes an index register that is there, and a value that the register can hold. -/
theorem Context.exists_of_update {cx : Context} {mode : AddrMode} {a : Access} (h : cx.access mode = .ok a) {n v : Nat}
    (hupdate : a.update = some (n, v)) : v < span 16 ∧ ∃ index, Core.fetch cx.core.index n = .ok index := by
  have hstep {i next : Nat} {delta : Int} (hnext : cx.core.stepIndex i delta = .ok next) (hin : (i, next) = (n, v)) :
      v < span 16 ∧ ∃ index, Core.fetch cx.core.index n = .ok index := by
    cases hin
    obtain ⟨index, hindex, hnext⟩ := bind_eq_ok_iff.1 hnext
    obtain ⟨base, -, hnext⟩ := bind_eq_ok_iff.1 hnext
    obtain ⟨length, -, hnext⟩ := bind_eq_ok_iff.1 hnext
    cases hnext
    exact ⟨AddressGenerator.step_lt .., index, hindex⟩
  have hbefore {i : Nat} {delta : Int} (h : cx.core.accessBefore i delta = .ok a) :
      v < span 16 ∧ ∃ index, Core.fetch cx.core.index n = .ok index := by
    obtain ⟨addr, -, h⟩ := bind_eq_ok_iff.1 h
    obtain ⟨next, hnext, h⟩ := bind_eq_ok_iff.1 h
    cases h
    exact hstep hnext (Option.some.inj hupdate)
  have hafter {i : Nat} {delta : Int} (h : cx.core.accessAfter i delta = .ok a) :
      v < span 16 ∧ ∃ index, Core.fetch cx.core.index n = .ok index := by
    obtain ⟨next, hnext, h⟩ := bind_eq_ok_iff.1 h
    cases h
    exact hstep hnext (Option.some.inj hupdate)
  unfold access at h
  cases mode with
  | direct addr | symbol name =>
    dsimp only at h
    split at h
    · cases h
      cases hupdate
    · cases h
  | post i k =>
    obtain ⟨delta, -, h⟩ := bind_eq_ok_iff.1 h
    exact hbefore h
  | pre k i =>
    obtain ⟨delta, -, h⟩ := bind_eq_ok_iff.1 h
    exact hafter h
  | postImm i delta =>
    dsimp only at h
    split at h
    · obtain ⟨addr, -, h⟩ := bind_eq_ok_iff.1 h
      cases h
      cases hupdate
    · exact hbefore h
  | preImm delta i => exact hafter h

namespace Simulator

variable {sim : Simulator} {idx : Nat} {i : Instruction}

namespace Accesses

variable {m : Member} {r : Reg} {a : Access} (h : sim.Accesses i m r a)

include h

/-- A word with an access runs, and reports the faults of its accesses in the order of its operations. -/
theorem execute : ∃ sel fx, select i = .ok sel ∧ m ∈ sel.members ∧ sel.members.Nodup ∧
    QuadDsp.execute sim.core sim.mem sim.program i = .ok fx ∧
      fx.faults = (sel.members.filterMap (·.fault? (sim.context i))).map .address := by
  obtain ⟨ref, href, ha⟩ := h.access
  rcases h.issues.alone_or_bundled with ⟨sel, hs, hmembers, -⟩ | ⟨sel, hs, hbundle, hm, -⟩
  · obtain ⟨fx, ws, hfx, -⟩ := h.makes.exists_effects h.opcode
    refine ⟨sel, Effects.and { mask := sim.core.mask i.cond } fx, hs, by simp [hmembers], by simp [hmembers], ?_, ?_⟩
    · rw [execute_of_selected h.issues.structured hs, hmembers, executeMembers]
      show (do executeMembers _ (Effects.and _ (← m.execute (sim.context i))) []) = _
      rw [hfx]
      rfl
    · have hreports := h.issues.fit.reports h.opcode href ha hfx
      rw [hmembers, ← flatMap_faults (.cons hreports .nil)]
      simp [Effects.and]
  · obtain ⟨t, ht, hfills⟩ := select_fills hs
    obtain ⟨l, hl, hexecute⟩ := execute_bundle hs hbundle sim.core sim.mem sim.program h.issues.structured
    refine ⟨sel, _, hs, hm, (hfills.nodup_roles ht).of_map _, hexecute, ?_⟩
    rw [Effects.faults_foldl_and, List.nil_append]
    have hall := selectBundle_members (selectBundle_of_select hs hbundle)
    refine flatMap_faults (((List.forall₂_and_left _ _).2 ⟨fun m' hm' => hm', hl⟩).imp fun m' fx' hboth => ?_)
    obtain ⟨hm', hfx'⟩ := hboth
    exact (hall m' hm').1.reports (hall m' hm').2 (fit_of_select hs m' hm') hfx'

theorem index_step {n v : Nat} (hupdate : a.update = some (n, v)) : Core.fetch sim.step.core.index n =
    if sim.core.holds i.cond .first then .ok v else Core.fetch sim.core.index n := by
  obtain ⟨idx, hcurrent⟩ := h.current
  obtain ⟨ref, -, ha⟩ := h.access
  obtain ⟨hlt, index, hindex⟩ := Context.exists_of_update ha hupdate
  have hindex : Core.fetch sim.core.index n = .ok index := hindex
  obtain ⟨fx, ws, hfx, hwrites, hws⟩ := h.makes.exists_effects h.opcode
  have hstep : a.writes = [.address ⟨.index, n⟩ v] := by rw [Access.writes, hupdate]
  rw [hstep] at hwrites
  have hhits : fx.Hits (.index n) := ⟨.address ⟨.index, n⟩ v, hwrites ▸ List.mem_cons_self, rfl⟩
  have hothers : ∀ w ∈ ws, ¬w.Hits (.index n) := fun w hw hhits => hws w hw _ (Write.place_of_hits hhits rfl)
  have hread := Simulator.read_step_of_hits hcurrent h.issues h.asks hfx hhits
  rw [hwrites] at hread
  refine hread.trans ((Cell.read_foldl_of_not_hits hothers).trans ((Cell.index_apply _ _ _ n).trans ?_))
  dsimp only
  rw [Core.mask_apply, hindex]
  by_cases hfirst : sim.core.holds i.cond .first = true
  · rw [if_pos ⟨hfirst, rfl⟩, if_pos hfirst]
    exact congrArg Except.ok (lowBits_natCast hlt)
  · rw [if_neg fun hboth => hfirst hboth.1, if_neg hfirst]

/-- Where an access is at fault, what it would reach keeps what it holds. -/
theorem read_step_of_fault {e : AddressError}
    (he : (sim.context i).accessFault? a.addr (r.cls == .complex) = some e) {c : Cell} (hc : m.Reaches r c) :
    c.read sim.step.core sim.step.mem = c.read sim.core sim.mem :=
  (h.read_step hc (h.execute_of_fault he)).trans
    (Cell.read_foldl_of_not_hits (Access.not_hits fun n hn => by rw [hn] at hc; cases hc))

/-- The other operations of the word leave in every cell that they write what they leave there anyway. -/
theorem read_step_of_other {m' : Member} (h' : i.Issues m') : ∃ fx, m'.execute (sim.context i) = .ok fx ∧
    ∀ c : Cell, fx.Hits c →
      c.read sim.step.core sim.step.mem = c.behind sim.core sim.mem (sim.core.mask i.cond) fx.writes := by
  obtain ⟨idx, hcurrent⟩ := h.current
  obtain ⟨fx, hfx⟩ : ∃ fx, m'.execute (sim.context i) = .ok fx := by
    obtain ⟨sel', hs', hm'⟩ := h'.selected
    rcases h.issues.alone_or_bundled with ⟨sel, hs, hmembers, -⟩ | ⟨sel, hs, hbundle, -⟩ <;> cases hs.symm.trans hs'
    · obtain ⟨fx, -, hfx, -⟩ := h.makes.exists_effects h.opcode
      exact ⟨fx, h'.eq_of_alone hs hmembers ▸ hfx⟩
    · exact exists_execute_of_bundle hs hbundle hm' (sim.context i)
  exact ⟨fx, hfx, fun c hc => (Simulator.read_step hcurrent (h.issues.asks h.asks) c).trans (h'.after_of_hits hfx hc)⟩

end Accesses

/-- Faults of accesses come before anything is committed, and skip the accesses only. Whatever the state of the machine,
committing the effects of a word finds no fault. If the next word has a load or store, its index register is stepped
where lane 0 takes part, at fault or not. If the words of the access are not in memory, or those of a pair begin at an
odd address, the word reports this once, in its place among the faults of the other accesses; what the access would
reach keeps what it holds; and each other operation leaves in what it writes what it leaves there anyway. -/
theorem skips_access (hcurrent : sim.current? = some (idx, i)) :
    (∀ s mem p j fx, execute s mem p j = .ok fx → (commit s mem fx).2.2 = []) ∧
      ∀ m r a, sim.Accesses i m r a →
        (∀ n v, a.update = some (n, v) → Core.fetch sim.step.core.index n =
          if sim.core.holds i.cond .first then .ok v else Core.fetch sim.core.index n) ∧
        (¬sim.mem.Takes r a.addr →
          (∃ sel e, select i = .ok sel ∧ m ∈ sel.members ∧ sel.members.Nodup ∧ m.fault? (sim.context i) = some e ∧
            sim.step.diagnostics = sim.diagnostics ++
              ((sel.members.filterMap (·.fault? (sim.context i))).map (fun e => i.execDiagnostic (.address e)) ++
                sequencerReports sim.core i (sim.advanced idx i))) ∧
          (∀ c, m.Reaches r c → c.read sim.step.core sim.step.mem = c.read sim.core sim.mem) ∧
          ∀ m', i.Issues m' → m' ≠ m → ∃ fx, m'.execute (sim.context i) = .ok fx ∧ ∀ c : Cell, fx.Hits c →
            c.read sim.step.core sim.step.mem = c.behind sim.core sim.mem (sim.core.mask i.cond) fx.writes) := by
  have hcommit (s : Core) (mem : Memory) (p : Program) (j : Instruction) (fx : Effects)
      (hfx : QuadDsp.execute s mem p j = .ok fx) : (commit s mem fx).2.2 = [] :=
    ((execute_inBounds s mem p j).2 fx hfx).commit s
  refine ⟨hcommit, fun m r a h => ⟨fun n v => h.index_step, fun hbad => ?_⟩⟩
  obtain ⟨e, he⟩ : ∃ e, (sim.context i).accessFault? a.addr (r.cls == .complex) = some e :=
    Option.ne_none_iff_exists'.1 (mt Context.accessFault?_eq_none_iff.1 hbad)
  refine ⟨?_, fun c => h.read_step_of_fault he, fun m' h' _ => h.read_step_of_other h'⟩
  obtain ⟨sel, fx, hs, hm, hnodup, hfx, hfaults⟩ := h.execute
  obtain ⟨ref, href, ha⟩ := h.access
  refine ⟨sel, e, hs, hm, hnodup, (Member.fault?_of_access h.opcode href h.register ha).trans he, ?_⟩
  rw [step_of_current? hcurrent, stepAt_eq]
  dsimp only
  have heffects : effects sim.core sim.mem sim.program i = (fx, fx.faults) := by rw [effects, hfx]
  have hcommitted : (sim.committed i).2.2 = [] := by
    rw [committed, heffects]
    exact hcommit _ _ _ _ fx hfx
  rw [reports, faultsOf, hcommitted, heffects, List.append_nil, hfaults, List.map_map]
  rfl

/-- A product beside two loads. -/
def twoLoadsWords : Program :=
  ([{ line := 1
      opcode := .mac
      operands := [.reg ⟨.acc, 0⟩, .reg ⟨.general, 5⟩, .reg ⟨.general, 6⟩, .key (.mul .ss)]
      siblings :=
        [{ line := 1, opcode := .ld, operands := [.reg ⟨.general, 1⟩, .mem ⟨.data, .post 0 0⟩] },
          { line := 1, opcode := .ld, operands := [.reg ⟨.general, 4⟩, .mem ⟨.data, .post 4 4⟩] }] }].foldl
    Builder.push (Builder.origin 0)).program

/-- The second load stands past the end of memory. -/
def twoLoads : Simulator :=
  let sim := load twoLoadsWords { dataWords := 2 }
  { sim with
    core := ((sim.core.setAddress ⟨.index, 4⟩ 2).setAddress ⟨.modify, 4⟩ 1).setReg 4 (Lanes.fill 9) Mask.all }

theorem skips_access_twoLoads : ∃ i m a, twoLoads.current? = some (0, i) ∧ twoLoads.Accesses i m ⟨.general, 4⟩ a ∧
    ¬twoLoads.mem.Takes ⟨.general, 4⟩ a.addr ∧ Core.fetch twoLoads.step.core.index 4 = .ok 3 ∧
      twoLoads.step.core.reg 4 = .ok (Lanes.fill 9) := by
  obtain ⟨i, m, a, hcurrent, h, hbad, hupdate, hop, hcond⟩ : ∃ i m a, twoLoads.current? = some (0, i) ∧
      twoLoads.Accesses i m ⟨.general, 4⟩ a ∧ ¬twoLoads.mem.Takes ⟨.general, 4⟩ a.addr ∧ a.update = some (4, 3) ∧
        m.opcode = .ld ∧ i.cond = .always :=
    ⟨_, _, _, rfl, ⟨⟨0, rfl⟩, ⟨rfl, _, rfl, List.mem_cons_of_mem _ (List.mem_cons_of_mem _ List.mem_cons_self)⟩,
      by decide, rfl, _, rfl, rfl⟩, fun h => absurd h.2 (by decide), rfl, rfl, rfl⟩
  obtain ⟨-, haccess⟩ := skips_access hcurrent
  obtain ⟨hindex, hfault⟩ := haccess m _ a h
  obtain ⟨-, hkept, -⟩ := hfault hbad
  refine ⟨i, m, a, hcurrent, h, hbad, (hindex 4 3 hupdate).trans ?_, hkept (.reg 4) (.part (k := 0) hop (by decide))⟩
  rw [hcond]
  rfl

end Simulator

end QuadDsp
