import Dissolve.Proofs.Lift.Courses
import Dissolve.Proofs.Semantics.StackRun

/-!
# Proofs.Lift.Traversal — the stack machine goes through lifted ranges

What the stack machine does in a range, said by the course of its block: at each instruction it moves
values only or asks for the operation that stands there in the block (`Course.next_step`), and at the
end it leaves the range along an edge or stops (`Course.fall`, `Course.exit`).

So control does come to every range with the shape of the stack that was recorded for it
(`Shaped.arrives`), and where the kinds of slots agree that is the only shape of its length.
-/

namespace Dissolve

open List

variable {D : Type} {op : Op} {o : Nat}

namespace Ssa.Op

lemma length_targets_of_jump (h : op.role = .jump) : op.targets.length = 1 := by
  cases op <;> first | rfl | cases h

lemma length_targets_of_ret (h : op.role = .ret) : op.targets.length = 0 := by
  cases op <;> first | rfl | cases h

lemma length_targets_of_throw (h : op.role = .throw) : op.targets.length = 0 := by
  cases op <;> first | rfl | cases h

lemma targets_of_not_terminator (h : op.isTerminator = false) : op.targets = [] := by
  cases op <;> first | rfl | cases h

end Ssa.Op

namespace Lift

open Code (Instruction)
open Machine (Comes Ending KindsAgree)
open Progress
open Semantics (Answer Move Question Reaches assign)
open Ssa (Op)

/-! ## One step of the stack machine in a block -/

lemma Layout.Lays.goTo_eq {layout : Layout} {insns : List Instruction} (h : layout.Lays insns)
    {l : Label} (hl : layout.labels.get? l = some o) (frame : Machine.Frame D) :
    Machine.goTo insns l frame = .running o frame := by
  have hget := (h.labels l o).1 hl
  have hfind : insns.findIdx? (fun insn => decide (insn = .label l)) = some o := by
    obtain ⟨hlt, hinsn⟩ := List.getElem?_eq_some_iff.1 hget
    refine List.findIdx?_eq_some_iff_getElem.2 ⟨hlt, by simp [hinsn], fun i hi => ?_⟩
    -- a label stands at one offset only
    simp only [decide_eq_true_eq]
    intro hi'
    have hl' := (h.labels l i).2 (List.getElem?_eq_some_iff.2 ⟨by omega, hi'⟩)
    have := Option.some.inj (hl.symm.trans hl')
    omega
  simp only [Machine.goTo, hfind]

/-- How the stack machine leaves a range whose block ends with `op`. -/
inductive Exit {D : Type} (layout : Layout) (insns : List Instruction) (k : Nat) (op : Op)
    (env : ValueId → D) (frame : Machine.Frame D) :
    Move (Question D) (Answer D) (Ending D) (Machine.State D) → Prop
  | jump {j o : Nat} (role : op.role = .jump) (edge : (layout.normal k)[0]? = some j)
      (enters : layout.Enters insns j o) :
      Exit layout insns k op env frame (.silent (.running o frame))
  | ret (role : op.role = .ret) :
      Exit layout insns k op env frame (.halt (.returned (op.operands.map env).head?))
  | throw {exception : D} (role : op.role = .throw) (operands : op.operands.map env = [exception]) :
      Exit layout insns k op env frame (.halt (.thrown exception))
  | choose {answer : Answer D → Machine.State D} (role : op.role = .ask)
      (value : ∀ content, answer (.value content) = .ended .stuck)
      (raise : ∀ exception handler, answer (.raise exception handler) = .ended (.thrown exception))
      (choice : ∀ n, (layout.normal k).length ≤ n ∧ answer (.choice n) = .ended .stuck ∨
        ∃ j o, (layout.normal k)[n]? = some j ∧ layout.Enters insns j o ∧
          answer (.choice n) = .running o frame) :
      Exit layout insns k op env frame (.ask ⟨op.form, op.operands.map env⟩ answer)

namespace Course

variable {s : Subject} {layout : Layout} {p : Progress} {k : Nat} {b : BlockId} {r : Range}
  {S : Variable → Option ValueId} {stack : Nat → OperandStack} {before : Nat → List InsnId}
  {stop : Nat} {final : OperandStack} {start : Variable → D} {env : ValueId → D}

section

variable (h : Course s layout p k b r S stack before stop final)
include h

lemma stop_le : stop ≤ r.stop := by
  rw [h.stop_eq]
  split <;> omega

section

variable (hlays : layout.Lays s.body.instructions)
include hlays

lemma insn_at (ho : o < r.stop) :
    s.body.instructions[o]? = some (insnAt s.body.instructions o) := by
  have hlt : o < s.body.instructions.length := ho.trans_le (hlays.bounds h.range).2
  rw [insnAt, getElem?_eq_getElem hlt]
  rfl

/-- At an instruction inside the range the machine moves values only, or it asks for the operation
that stands there in the block. -/
theorem next_step (ho : r.start ≤ o) (hos : o < stop) (hag : Agree p.resolve S start env) :
    (before (o + 1) = before o ∧
      Machine.next s.body.instructions (.running o ((stack o).frame p.resolve start env)) =
        .silent (.running (o + 1) ((stack (o + 1)).frame p.resolve start env))) ∨
    ∃ i answer, before (o + 1) = before o ++ [i] ∧ (p.func.insn i).op.role = .ask ∧
      (p.func.insn i).op.isTerminator = false ∧
      Machine.next s.body.instructions (.running o ((stack o).frame p.resolve start env)) =
        .ask ⟨(p.func.insn i).op.form, (p.func.insn i).op.operands.map env⟩ answer ∧
      (∀ n, answer (.choice n) = .ended .stuck) ∧
      (∀ e n, answer (.raise e n) = .ended (.thrown e)) ∧
      ∀ d, answer (.value d) = .running (o + 1)
          ((stack (o + 1)).frame p.resolve start (assign env (p.func.insn i).dest d)) ∧
        Agree p.resolve S start (assign env (p.func.insn i).dest d) := by
  obtain ⟨node, hissues, hmimics, hspares⟩ := h.step o ho hos
  have hinsn := h.insn_at hlays (hos.trans_le h.stop_le)
  have hmimic := hmimics D start env hag
  have hfits := Machine.exec_fits ((stack o).frame p.resolve start env)
    (insnAt s.body.instructions o)
  cases node with
  | none =>
    refine .inl ⟨hissues, ?_⟩
    cases hexec : Machine.exec ((stack o).frame p.resolve start env)
        (insnAt s.body.instructions o) with
    | silent frame =>
      rw [hexec] at hmimic
      simp only [Machine.next, hinsn, hexec]
      rw [show frame = _ from hmimic]
    | _ => rw [hexec] at hmimic; exact hmimic.elim
  | some node =>
    obtain ⟨op, dest⟩ := node
    obtain ⟨i, hi, hop, hdest, hterm⟩ := hissues
    cases hexec : Machine.exec ((stack o).frame p.resolve start env)
        (insnAt s.body.instructions o) with
    | perform name args resume =>
      rw [hexec] at hmimic hfits
      obtain ⟨rfl, rfl, hresume⟩ := hmimic
      have hrole : op.role = .ask := by
        rw [← Op.role_mapOperands op fun _ => ⟨0⟩, ← Op.role_mapTargets _ fun _ => ⟨0⟩]
        exact hfits
      refine .inr ⟨i, Machine.performed o resume, hi, by rw [hop, Op.role_mapOperands, hrole],
        by rw [hop, Op.isTerminator_mapOperands, hterm], ?_, fun _ => rfl, fun _ _ => rfl,
        fun d => ⟨?_, ?_⟩⟩
      · simp only [Machine.next, hinsn, hexec, hop, Op.form_mapOperands,
          Op.operands_mapOperands, map_map]
        rfl
      · change Machine.State.running (o + 1) (resume d) = _
        rw [hresume d, hdest]
      · rw [hdest]
        exact hspares op dest rfl D start env d hag
    | _ => rw [hexec] at hmimic; exact hmimic.elim

omit hlays in
lemma skip_labels (ho : r.start ≤ o) (hos : o ≤ stop)
    (hlabels : ∀ i, r.start ≤ i → i < o → (insnAt s.body.instructions i).isLabel)
    (hag : Agree p.resolve S start env) : before o = before r.start ∧
      (stack o).frame p.resolve start env = (stack r.start).frame p.resolve start env := by
  induction o, ho using Nat.le_induction with
  | base => exact ⟨rfl, rfl⟩
  | succ o ho ih =>
    obtain ⟨hbefore, hframe⟩ := ih (by omega) fun i hi hlt => hlabels i hi (by omega)
    obtain ⟨node, hissues, hmimics, -⟩ := h.step o ho hos
    have hmimic := hmimics D start env hag
    obtain ⟨l, hl⟩ : ∃ l, insnAt s.body.instructions o = .label l := by
      have hlabel := hlabels o ho (Nat.lt_succ_self o)
      cases hinsn : insnAt s.body.instructions o with
      | label l => exact ⟨l, rfl⟩
      | _ => simp [hinsn, Instruction.isLabel] at hlabel
    have hexec : Machine.exec ((stack o).frame p.resolve start env) (.label l) =
        .silent ((stack o).frame p.resolve start env) := rfl
    rw [hl, hexec] at hmimic
    cases node with
    | none =>
      exact ⟨hissues.trans hbefore, hmimic.symm.trans hframe⟩
    | some node => exact hmimic.elim

theorem fall (hends : (Layout.lastInsn s.body.instructions r).endsBlock = false)
    (hag : Agree p.resolve S start env) :
    stop = r.stop ∧ ∃ i, (p.func.block b).insns = before stop ++ [i] ∧
      (p.func.insn i).op.isTerminator ∧
      p.BlocksOf (layout.normal k) (p.func.insn i).op.targets ∧
      (p.func.insn i).op.role = .jump ∧ (layout.normal k)[0]? = some (k + 1) ∧
      layout.Enters s.body.instructions (k + 1) r.stop ∧
      (stack stop).frame p.resolve start env = final.frame p.resolve start env := by
  have hstop := h.stop_eq
  rw [hends, if_neg Bool.false_ne_true] at hstop
  obtain ⟨i, op, hi, hop, hterm, hblocks, -, hfinishes⟩ := h.ending
  rw [hends, if_neg Bool.false_ne_true] at hfinishes
  have hfinish := hfinishes D start env hag
  have hexec : Machine.exec ((stack stop).frame p.resolve start env) (.goto default) =
      .jump default ((stack stop).frame p.resolve start env) := rfl
  obtain ⟨hfalls, htargets⟩ := flow_of_endsBlock_false hends
  obtain ⟨jumps, hjumps, hnormal⟩ := hlays.normal_eq h.range h.fallsOff
  rw [htargets, forall₂_nil_left_iff] at hjumps
  rw [hjumps, hfalls, if_pos rfl] at hnormal
  refine ⟨hstop.symm, i, hi, by rw [hop, Op.isTerminator_mapOperands, hterm],
    by rwa [hop, Op.targets_mapOperands], ?_, by rw [hnormal]; rfl, hlays.enters_stop h.range hfalls h.fallsOff, ?_⟩
  · rw [hop, Op.role_mapOperands]
    cases op <;> first | rfl | exact hfinish.elim
  · cases op <;> first | exact hfinish | exact hfinish.elim

lemma choose_cases (hends : (Layout.lastInsn s.body.instructions r).endsBlock)
    {targets : List Label} {dflt : Option Label}
    (htargets : (Layout.lastInsn s.body.instructions r).branchTargets = targets ++ dflt.toList)
    (hfalls : (Layout.lastInsn s.body.instructions r).fallsThrough = dflt.isNone) (n : Nat)
    (frame : Machine.Frame D) :
    (layout.normal k).length ≤ n ∧
        Machine.choose s.body.instructions stop targets dflt n frame = .ended .stuck ∨
      ∃ j o, (layout.normal k)[n]? = some j ∧ layout.Enters s.body.instructions j o ∧
        Machine.choose s.body.instructions stop targets dflt n frame = .running o frame := by
  have hstop := h.stop_eq
  rw [hends, if_pos rfl] at hstop
  obtain ⟨jumps, hjumps, hnormal⟩ := hlays.normal_eq h.range h.fallsOff
  rw [htargets] at hjumps
  rw [hfalls] at hnormal
  have hlen := hjumps.length_eq
  unfold Machine.choose
  cases hget : (targets ++ dflt.toList)[n]? with
  | some l =>
    obtain ⟨hn, rfl⟩ := List.getElem?_eq_some_iff.1 hget
    obtain ⟨o, ho, henters⟩ := hjumps.get hn (hlen ▸ hn)
    refine .inr ⟨_, o, ?_, henters, hlays.goTo_eq ho _⟩
    have hjump : jumps[n]? = some (jumps.get ⟨n, hlen ▸ hn⟩) := getElem?_eq_getElem (hlen ▸ hn)
    rw [hnormal]
    split
    · rw [getElem?_append_left (hlen ▸ hn), hjump]
    · exact hjump
  | none =>
    have hn := getElem?_eq_none_iff.1 hget
    cases dflt with
    | none =>
      simp only [Option.toList_none, append_nil] at hlen hn
      by_cases heq : n = targets.length
      · -- the next instruction
        refine .inr ⟨k + 1, stop + 1, ?_, ?_, by simp [heq]⟩
        · rw [hnormal, Option.isNone_none, if_pos rfl, heq, hlen, getElem?_concat_length]
        · rw [← hstop]
          exact hlays.enters_stop h.range (by rw [hfalls]; rfl) h.fallsOff
      · refine .inl ⟨?_, by simp [heq]⟩
        rw [hnormal, Option.isNone_none, if_pos rfl, length_append, length_singleton]
        omega
    | some l =>
      rw [Option.isNone_some, if_neg Bool.false_ne_true] at hnormal
      exact .inl ⟨by rw [hnormal, ← hlen]; exact hn, by simp⟩

theorem exit (hends : (Layout.lastInsn s.body.instructions r).endsBlock)
    (hag : Agree p.resolve S start env) :
    ∃ i, (p.func.block b).insns = before stop ++ [i] ∧
      (p.func.insn i).op.isTerminator ∧
      p.BlocksOf (layout.normal k) (p.func.insn i).op.targets ∧
      Exit layout s.body.instructions k (p.func.insn i).op env (final.frame p.resolve start env)
        (Machine.next s.body.instructions
          (.running stop ((stack stop).frame p.resolve start env))) := by
  have hstop := h.stop_eq
  rw [hends, if_pos rfl] at hstop
  obtain ⟨i, op, hi, hop, hterm, hblocks, -, hfinishes⟩ := h.ending
  rw [hends, if_pos rfl] at hfinishes
  refine ⟨i, hi, by rw [hop, Op.isTerminator_mapOperands, hterm],
    by rwa [hop, Op.targets_mapOperands], ?_⟩
  have hlast : insnAt s.body.instructions stop = Layout.lastInsn s.body.instructions r := by
    rw [Layout.lastInsn, hstop, Nat.add_sub_cancel]
  have hinsn := h.insn_at hlays (show stop < r.stop by omega)
  rw [hlast] at hinsn
  obtain ⟨jumps, hjumps, hnormal⟩ := hlays.normal_eq h.range h.fallsOff
  have hfits := Machine.exec_fits ((stack stop).frame p.resolve start env)
    (Layout.lastInsn s.body.instructions r)
  have hfinish := hfinishes D start env hag
  have hargs : (p.func.insn i).op.operands.map env = op.operands.map fun v => env (p.resolve v) := by
    rw [hop, Op.operands_mapOperands, map_map]
    rfl
  have hrole : (p.func.insn i).op.role = op.role := by rw [hop, Op.role_mapOperands]
  split at hfinish
  · next target l frame hexec =>
      rw [hexec] at hfits
      have hgoto : Layout.lastInsn s.body.instructions r = .goto l := hfits
      rw [hgoto] at hjumps hnormal
      obtain ⟨j, rest, ⟨o, ho, henters⟩, hrest, rfl⟩ := forall₂_cons_left_iff.1 hjumps
      simp only [Machine.next, hinsn, hexec, hlays.goTo_eq ho, hfinish]
      refine .jump (j := j) hrole ?_ henters
      rw [hnormal]
      rfl
  · next value d hexec =>
      simp only [Machine.next, hinsn, hexec]
      have hret : (d : Option D) = ((p.func.insn i).op.operands.map env).head? := by
        rw [hargs, ← hfinish]
        cases value <;> rfl
      rw [hret]
      exact .ret hrole
  · next v d hexec =>
      simp only [Machine.next, hinsn, hexec]
      refine .throw hrole ?_
      rw [hargs, ← hfinish]
      rfl
  · rename_i op _ _ name args targets dflt frame hexec
    obtain ⟨rfl, rfl, rfl⟩ := hfinish
    rw [hexec] at hfits
    obtain ⟨htargets, hfalls, hask⟩ := hfits
    have hform : (p.func.insn i).op.form = op.form := by rw [hop, Op.form_mapOperands]
    simp only [Machine.next, hinsn, hexec]
    rw [← hform, ← hargs]
    refine .choose ?_ (fun _ => rfl) (fun _ _ => rfl) fun n =>
      h.choose_cases hlays hends htargets hfalls n _
    rw [hrole, ← Op.role_mapOperands op fun _ => ⟨0⟩, ← Op.role_mapTargets _ fun _ => ⟨0⟩]
    exact hask
  · exact hfinish.elim

end

end

end Course

/-! ## Shapes of stacks -/

/-- Control comes to range `k` with slots of the given kinds, the bottom first. -/
def Arrives (layout : Layout) (body : Code.Body) (k : Nat) (shape : List ValueType) : Prop :=
  ∃ o frame, layout.Enters body.instructions k o ∧ Comes body (.running o frame) ∧
    (frame.stack.map Prod.snd).reverse = shape

section Arrivals

variable {s : Subject} {layout : Layout} {body : Code.Body} {p : Progress} {k o' stop j : Nat}
  {shape shape' : List ValueType}

lemma comes_labels {frame : Machine.Frame Unit} (h : Comes body (.running o frame)) (ho : o ≤ o')
    (hlabels : ∀ i, o ≤ i → i < o' → (insnAt body.instructions i).isLabel) :
    Comes body (.running o' frame) := by
  obtain ⟨origin, horigin, h⟩ := h
  refine ⟨origin, horigin, ?_⟩
  induction o', ho using Nat.le_induction with
  | base => exact h
  | succ o' ho ih =>
    refine .silent (ih fun i hi hlt => hlabels i hi (by omega)) ?_
    have hlabel := hlabels o' ho (Nat.lt_succ_self o')
    cases hget : body.instructions[o']? with
    | none => simp [insnAt, hget, Instruction.isLabel] at hlabel
    | some insn =>
      cases insn with
      | label l => simp only [Machine.next, hget]; rfl
      | _ => simp [insnAt, hget, Instruction.isLabel] at hlabel

/-- A range is entered with the same kinds of slots on all ways that bring equally many. -/
lemma Arrives.unique (hagree : KindsAgree body) (h : Arrives layout body k shape)
    (h' : Arrives layout body k shape') (hlen : shape.length = shape'.length) : shape = shape' := by
  obtain ⟨o, frame, ⟨r, hr, hlo, -, hlabels⟩, hreaches, rfl⟩ := h
  obtain ⟨o', frame', ⟨r', hr', hlo', -, hlabels'⟩, hreaches', rfl⟩ := h'
  obtain rfl := Option.some.inj (hr.symm.trans hr')
  have hlen : frame.stack.length = frame'.stack.length := by simpa using hlen
  -- labels lead from the earlier way in to the later one
  rcases Nat.le_total o o' with hle | hle
  · have hcome := comes_labels hreaches hle fun i hi hlt => hlabels' i (by omega) hlt
    rw [hagree o' frame frame' hcome hreaches' hlen]
  · have hcome := comes_labels hreaches' hle fun i hi hlt => hlabels i (by omega) hlt
    rw [hagree o frame frame' hreaches hcome hlen]

lemma kinds_frame (st : OperandStack) (R : ValueId → ValueId) (start : Variable → D)
    (env : ValueId → D) :
    ((st.frame R start env).stack.map Prod.snd).reverse = st.bottomUp.map Slot.ty := by
  simp [OperandStack.frame, OperandStack.bottomUp, Function.comp_def]

lemma frame_ext_unit {frame frame' : Machine.Frame Unit}
    (h : frame.stack.map Prod.snd = frame'.stack.map Prod.snd) : frame = frame' := by
  obtain ⟨stack, cells⟩ := frame
  obtain ⟨stack', cells'⟩ := frame'
  have hinj : Function.Injective (Prod.snd : Unit × ValueType → ValueType) := fun a b hab =>
    Prod.ext rfl hab
  rw [show stack = stack' from map_injective_iff.2 hinj h, Subsingleton.elim cells cells']

/-- A lifted range passes the shape of its stack on to the ranges behind it. -/
theorem Course.arrives {b : BlockId} {r : Range} {S : Variable → Option ValueId}
    {stack : Nat → OperandStack} {before : Nat → List InsnId} {final : OperandStack}
    (h : Course s layout p k b r S stack before stop final)
    (hlays : layout.Lays s.body.instructions)
    (hstack : (stack r.start).bottomUp.map Slot.ty = shape)
    (harrives : Arrives layout s.body k shape) (hj : j ∈ layout.normal k) :
    Arrives layout s.body j (final.bottomUp.map Slot.ty) := by
  obtain ⟨o, frame, ⟨r', hr', hlo, hhi, hlabels⟩, ⟨origin, horigin, hreaches⟩, hkinds⟩ := harrives
  obtain rfl := Option.some.inj (h.range.symm.trans hr')
  set start : Variable → Unit := fun _ => ()
  set env : ValueId → Unit := fun _ => ()
  have hag : Agree p.resolve S start env := fun _ _ _ => rfl
  have hos : o ≤ stop := by
    have := h.stop_eq
    split at this <;> omega
  have hframe : frame = (stack o).frame p.resolve start env := by
    rw [(h.skip_labels hlo hos hlabels hag).2]
    refine frame_ext_unit (reverse_injective ?_)
    rw [kinds_frame, hstack, hkinds]
  rw [hframe] at hreaches
  have hrun : ∀ o', o ≤ o' → o' ≤ stop → Reaches (Machine.next s.body.instructions) origin
      (.running o' ((stack o').frame p.resolve start env)) := by
    intro o' ho' hos'
    induction o', ho' using Nat.le_induction with
    | base => exact hreaches
    | succ o' ho' ih =>
      rcases h.next_step hlays (hlo.trans ho') hos' hag with ⟨-, hnext⟩ |
        ⟨i, answer, -, -, -, hnext, -, -, hvalue⟩
      · exact .silent (ih (by omega)) hnext
      · have hask := Reaches.ask (ih (by omega)) hnext (.value ())
        rw [(hvalue ()).1, Subsingleton.elim (assign env _ ()) env] at hask
        exact hask
  have hstop := hrun stop hos le_rfl
  obtain ⟨n, hn⟩ := getElem?_of_mem hj
  cases hends : (Layout.lastInsn s.body.instructions r).endsBlock with
  | false =>
    obtain ⟨heq, i, -, -, hblocks, hrole, hedge, henters, hsame⟩ := h.fall hlays hends hag
    have hlen := congrArg length hblocks
    rw [length_map, length_map, Op.length_targets_of_jump hrole] at hlen
    have hlt := (List.getElem?_eq_some_iff.1 hn).1
    obtain rfl : n = 0 := by omega
    obtain rfl := Option.some.inj (hn.symm.trans hedge)
    rw [hsame, heq] at hstop
    exact ⟨r.stop, _, henters, ⟨_, horigin, hstop⟩, kinds_frame _ _ _ _⟩
  | true =>
    obtain ⟨i, -, -, hblocks, hexit⟩ := h.exit hlays hends hag
    have hlen := congrArg length hblocks
    rw [length_map, length_map] at hlen
    have hlt := (List.getElem?_eq_some_iff.1 hn).1
    generalize hmove : Machine.next s.body.instructions _ = move at hexit
    cases hexit with
    | jump role edge enters =>
      rw [Op.length_targets_of_jump role] at hlen
      obtain rfl : n = 0 := by omega
      obtain rfl := Option.some.inj (hn.symm.trans edge)
      exact ⟨_, _, enters, ⟨_, horigin, .silent hstop hmove⟩, kinds_frame _ _ _ _⟩
    | ret role =>
      rw [Op.length_targets_of_ret role] at hlen
      omega
    | throw role =>
      rw [Op.length_targets_of_throw role] at hlen
      omega
    | choose role value raise choice =>
      rcases choice n with ⟨hle, -⟩ | ⟨j', o', hedge, henters, hanswer⟩
      · omega
      · obtain rfl := Option.some.inj (hn.symm.trans hedge)
        have hask := Reaches.ask hstop hmove (.choice n)
        rw [hanswer] at hask
        exact ⟨_, _, henters, ⟨_, horigin, hask⟩, kinds_frame _ _ _ _⟩

/-- Control does come to the ranges with the shapes that were recorded for them. -/
theorem Shaped.arrives (hlays : layout.Lays s.body.instructions) (hcatch : layout.Handles s.body)
    (hview : s.view = .identity) (hs : p.Sound []) (hgap : ∀ c x q, ¬p.IsGap [] c x q)
    (h : Shaped s layout p k shape) : Arrives layout s.body k shape := by
  induction h with
  | first =>
    obtain ⟨r, hr, hstart⟩ := hlays.first
    have hlt := (hlays.bounds hr).1
    exact ⟨0, ⟨[], fun _ => ()⟩, ⟨r, hr, by omega, by omega, fun i hi hlt => by omega⟩,
      ⟨_, .start, .refl⟩, rfl⟩
  | caught handler lifted edge =>
    obtain ⟨r, S, stackAt, insnsAt, stop, hcourse, hfirst, -, -⟩ :=
      lifted.course hlays hview hs hgap
    obtain ⟨_, _, -, hcrossed, -, -⟩ := lifted.crossed
    obtain ⟨-, -, -, -, hkinds⟩ := hcrossed.entered.caught handler
    obtain ⟨entry, hentry, o, ho, henters⟩ := hcatch _ handler
    rw [← hfirst] at hkinds
    refine hcourse.arrives hlays hkinds
      ⟨o, ⟨[((), .object)], fun _ => ()⟩, henters, ⟨_, .handler hentry, ?_⟩, rfl⟩ edge
    rw [hlays.goTo_eq ho]
    exact .refl
  | next before lifted stack edge ih =>
    obtain ⟨r, S, stackAt, insnsAt, stop, hcourse, hfirst, -, -⟩ :=
      lifted.course hlays hview hs hgap
    obtain ⟨st, hst⟩ := stack
    exact hcourse.arrives hlays (by rw [hfirst, hst, OperandStack.kinds_enterBlock]) ih edge

end Arrivals

end Lift

end Dissolve
