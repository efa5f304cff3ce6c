import Dissolve.Proofs.Lift.Stepping

/-!
# Proofs.Lift.Ending — the last instruction of a range is lifted

`Ended s layout k p p' b insn` says what lifting an instruction that ends range `k` does: one
operation is appended whose targets are the blocks of the normal successors of the range, and which
ends the block as the instruction ends the range (`Finishes`).
-/

namespace Dissolve.Lift

open List Machine
open Code (Instruction)
open Ssa (Function Op SwitchKeys)
open Progress

variable {p1 : Progress} {op : Op} {insn : Instruction} {count j : Nat} {vs : List ValueId}

/-- The operation ends a block as the instruction ends its range. -/
def Finishes (insn : Instruction) (st st' : OperandStack) (R : ValueId → ValueId)
    (S : Variable → Option ValueId) (op : Op) : Prop :=
  ∀ (D : Type) (start : Variable → D) (env : ValueId → D), Agree R S start env →
    match op, Machine.exec (st.frame R start env) insn with
    | .goto _, .jump _ frame => frame = st'.frame R start env
    | .ret value, .finish (.returned d) => (value.map fun v => env (R v)) = d
    | .throw v, .finish (.thrown d) => env (R v) = d
    | op, .choose name args _ _ frame =>
      op.form = name ∧ (op.operands.map fun v => env (R v)) = args ∧ frame = st'.frame R start env
    | _, _ => False

/-- A return takes the only value from the stack, if the subject asks for that. -/
def Strict (s : Subject) (st : OperandStack) (op : Op) : Prop :=
  s.config.strictStack = true → ∀ value, op = .ret value → st.slots.length = value.toList.length

namespace Progress

def BlocksOf (p : Progress) (ks : List Nat) (bs : List BlockId) : Prop :=
  ks.map p.blockOf.get? = bs.map some

/-- The last instruction of range `k` was lifted. -/
structure Ended (s : Subject) (layout : Layout) (k : Nat) (p p' : Progress) (b : BlockId)
    (insn : Instruction) : Prop where
  inBlock : InBlock p' b
  within : Within p p' b
  emits : ∃ i op, (p'.func.block b).insns = (p.func.block b).insns ++ [i] ∧
    (p'.func.insn i).op = op ∧ (p'.func.insn i).dest = none ∧ op.isTerminator = true ∧
    p.BlocksOf (layout.normal k) op.targets ∧ Strict s p.stack op ∧
    (s.view = .identity → ∀ R S, Foresees p' b R S → Finishes insn p.stack p'.stack R S op)

end Progress

variable {s : Subject} {layout : Layout} {k : Nat} {p : Progress} {b : BlockId}

def Created (layout : Layout) (p : Progress) (k : Nat) : Prop :=
  ∀ j ∈ layout.normal k, ∃ c, p.blockOf.get? j = some c

lemma blockOfRange_ensures (h : ∃ c, p.blockOf.get? j = some c) :
    Ensures (blockOfRange j) p fun c p' => p = p' ∧ p.blockOf.get? j = some c := by
  obtain ⟨c, hc⟩ := h
  refine .bind (.get ?_)
  rw [hc]
  exact .pure ⟨rfl, rfl⟩

lemma blocksOfRanges_ensures {ks : List Nat} (h : ∀ j ∈ ks, ∃ c, p.blockOf.get? j = some c) :
    Ensures (ks.mapM blockOfRange) p fun bs p' => p = p' ∧ p.BlocksOf ks bs := by
  refine (Ensures.mapM (I := fun rest bs p' => p = p' ∧ ∃ seen, ks = seen ++ rest ∧
    p.BlocksOf seen bs) ⟨rfl, [], rfl, rfl⟩ ?_).mono ?_
  · rintro j rest bs _ ⟨rfl, seen, hseen, hbs⟩
    refine (blockOfRange_ensures (h j (by simp [hseen]))).mono ?_
    rintro c _ ⟨rfl, hc⟩
    refine ⟨rfl, seen ++ [j], by simp [hseen], ?_⟩
    simp only [BlocksOf, map_append, map_cons, map_nil, hc] at hbs ⊢
    rw [hbs]
  · rintro bs _ ⟨rfl, seen, hseen, hbs⟩
    rw [append_nil] at hseen
    exact ⟨rfl, hseen ▸ hbs⟩

lemma jumpTarget_ensures (hcreated : Created layout p k) (index : Nat) :
    Ensures (jumpTarget layout k index) p fun c p' =>
      p = p' ∧ ∃ j, (layout.normal k)[index]? = some j ∧ p.blockOf.get? j = some c := by
  unfold jumpTarget
  split
  · next j hj =>
      refine (blockOfRange_ensures (hcreated j (mem_of_getElem? hj))).mono ?_
      rintro c _ ⟨rfl, hc⟩
      exact ⟨rfl, j, hj, hc⟩
  · exact .fault _

lemma emitEnd_ensures (h1 : InBlock p1 b)
    (hwithin1 : Within p p1 b) (hinsns : (p1.func.block b).insns = (p.func.block b).insns)
    (husable : ∀ v ∈ op.operands, p1.Usable b v) (hterm : op.isTerminator)
    (htargets : p.BlocksOf (layout.normal k) op.targets)
    (hfinish : s.view = .identity → ∀ R S, Foresees p1 b R S →
      Finishes insn p.stack p1.stack R S op) (hstrict : Strict s p.stack op := by simp [Strict]) :
    Ensures (emit op) p1 fun _ p' => Ended s layout k p p' b insn := by
  refine (Lift.emit_ensures h1 husable).mono ?_
  rintro _ p' ⟨g, rfl, happ⟩
  have hwithin := within_append h1 happ
  refine ⟨h1.append happ husable, hwithin1.trans hwithin, ⟨p1.func.insns.size⟩, op,
    ?_, happ.insn_new.1, happ.insn_new.2.1, hterm, htargets, hstrict, ?_⟩
  · rw [withFunc, happ.block, if_pos rfl, hinsns]
  · exact fun hview R S hf => hfinish hview R S (hf.of_within hwithin)

lemma Progress.Popped.end_ensures (hpop : Popped p p1 b count vs) (hops : op.operands = vs)
    (hterm : op.isTerminator) (htargets : p.BlocksOf (layout.normal k) op.targets)
    (hfinish : s.view = .identity → ∀ R S, Foresees p1 b R S →
      Finishes insn p.stack p1.stack R S op) (hstrict : Strict s p.stack op := by simp [Strict]) :
    Ensures (emit op) p1 fun _ p' => Ended s layout k p p' b insn :=
  emitEnd_ensures hpop.inBlock hpop.within hpop.insns (fun _ hv => hpop.usable (hops ▸ hv)) hterm
    htargets hfinish hstrict

lemma withTop_frame {D : Type} {R : ValueId → ValueId} {S : Variable → Option ValueId}
    {start : Variable → D} {env : ValueId → D} {v : ValueId}
    (hpop : Popped p p1 b 1 [v]) (hf : Foresees p1 b R S) (hag : Agree R S start env)
    (action : D → Machine.Frame D → Machine.Action D) :
    (p.stack.frame R start env).withTop action =
      action (env (R v)) (p1.stack.frame R start env) := by
  obtain ⟨hpopped, hcells⟩ := hpop.frame hf hag
  obtain ⟨kind, hslots⟩ := Machine.popValues?_one hpopped
  rw [Machine.Frame.withTop, hslots]
  simp only [← hcells]

lemma emitBranch_ensures {cond : Cond} {left : ValueId} {right : Option ValueId}
    (hpop : Popped p p1 b count vs) (hops : left :: right.toList = vs)
    (hcreated : Created layout p k) (hlen : (layout.normal k).length = 2)
    (hfinish : s.view = .identity → ∀ R S thenTarget elseTarget, Foresees p1 b R S →
      Finishes insn p.stack p1.stack R S (.branch cond left right thenTarget elseTarget)) :
    Ensures (emitBranch layout k cond left right) p1 fun _ p' => Ended s layout k p p' b insn := by
  have hcreated1 : Created layout p1 k := by
    rwa [Created, hpop.within.blockOf]
  refine .seq (jumpTarget_ensures hcreated1 0) ?_
  rintro thenTarget _ ⟨rfl, j, hj, hthen⟩
  refine .seq (jumpTarget_ensures hcreated1 1) ?_
  rintro elseTarget _ ⟨rfl, j', hj', helse⟩
  refine hpop.end_ensures hops rfl ?_ fun hview R S hf => hfinish hview R S _ _ hf
  rw [hpop.within.blockOf] at hthen helse
  match hnormal : layout.normal k, hlen with
  | [a, c], _ =>
    rw [hnormal] at hj hj'
    cases hj
    cases hj'
    simp [BlocksOf, Op.targets, hthen, helse]

lemma emitSwitch_ensures (h : InBlock p b) {keys : SwitchKeys}
    {targets : List Label} {default : Label} (hcreated : Created layout p k)
    (hlen : (layout.normal k).length = targets.length + 1)
    (hexec : ∀ (D : Type) (frame : Machine.Frame D), Machine.exec frame insn =
      frame.withTop fun value frame => .choose
        (.switch ⟨0⟩ keys (targets.map fun _ => ⟨0⟩) ⟨0⟩) [value] targets (some default) frame) :
    Ensures (emitSwitch layout k keys) p fun _ p' => Ended s layout k p p' b insn := by
  refine .seq (popValue_ensures h) fun selector p1 hpop => ?_
  cases hlast : (layout.normal k).getLast? with
  | none => exact .fault _
  | some last =>
    have hnormal := (dropLast_append_getLast? last hlast).symm
    have hcreated1 : ∀ j ∈ layout.normal k, ∃ c, p1.blockOf.get? j = some c := by
      rwa [hpop.within.blockOf]
    refine .seq (blocksOfRanges_ensures fun j hj =>
      hcreated1 j (dropLast_subset _ hj)) ?_
    rintro bs _ ⟨rfl, hbs⟩
    refine .seq (blockOfRange_ensures (hcreated1 last ?_)) ?_
    · rw [hnormal]
      simp
    rintro c _ ⟨rfl, hc⟩
    refine hpop.end_ensures rfl rfl ?_ ?_
    · rw [BlocksOf, hpop.within.blockOf] at hbs
      rw [hpop.within.blockOf] at hc
      rw [hnormal, BlocksOf, map_append, hbs, Op.targets, map_append]
      simp [hc]
    · intro _ R S hf D start env hag
      have hcount : bs.length = targets.length := by
        have hbs' := congrArg length hbs
        simp only [length_map, length_dropLast, hlen] at hbs'
        omega
      rw [hexec, withTop_frame hpop hf hag]
      refine ⟨?_, rfl, rfl⟩
      simp only [Op.form, Op.mapOperands, Op.mapTargets, map_const', hcount]

/-- The number of edges that an instruction needs at the end of its range. -/
def edgeCount (insn : Instruction) : Nat :=
  insn.branchTargets.length + if insn.fallsThrough then 1 else 0

/-- Every instruction that ends a range is lifted as the stack machine runs it. -/
lemma liftTerminator_ensures (h : InBlock p b) (insn : Instruction) (hends : insn.endsBlock)
    (hcreated : Created layout p k) (hlen : (layout.normal k).length = edgeCount insn) :
    Ensures (liftTerminator s layout k insn) p fun _ p' => Ended s layout k p p' b insn := by
  cases insn with
  | branch cond ty target =>
    refine .seq (popValue_ensures h) fun left p1 hpop => ?_
    refine emitBranch_ensures hpop rfl hcreated hlen ?_
    intro _ R S _ _ hf D start env hag
    rw [exec_eq_steer rfl, Machine.Frame.steer, withTop_frame hpop hf hag]
    exact ⟨rfl, rfl, rfl⟩
  | branchCmp cond ty target =>
    refine .seq (popValue_ensures h) fun right p1 h1 => ?_
    refine .seq (popValue_ensures h1.inBlock) fun left p2 h2 => ?_
    refine emitBranch_ensures (h1.cons h2) rfl hcreated hlen ?_
    intro _ R S _ _ hf D start env hag
    rw [exec_eq_steer rfl, Machine.Frame.steer,
      withTop_frame h1 (hf.of_within h2.within) hag, withTop_frame h2 hf hag]
    exact ⟨rfl, rfl, rfl⟩
  | goto target =>
    refine .seq (jumpTarget_ensures hcreated 0) ?_
    rintro c _ ⟨rfl, j, hj, hc⟩
    refine (Popped.refl h).end_ensures rfl rfl ?_ ?_
    · obtain ⟨a, hnormal⟩ := length_eq_one_iff.1 hlen
      rw [hnormal] at hj ⊢
      cases hj
      simp [BlocksOf, Op.targets, hc]
    · intro _ R S _ D start env _
      rfl
  | tableSwitch low targets default =>
    refine emitSwitch_ensures h hcreated ?_ fun D frame => exec_eq_steer rfl
    rw [hlen]
    simp [edgeCount, Instruction.branchTargets]
    rfl
  | lookupSwitch keys targets default =>
    rw [liftTerminator]
    split
    · exact .seq (Q := fun _ _ => False) (.fault _) fun _ _ h => h.elim
    · refine emitSwitch_ensures h hcreated ?_ fun D frame => exec_eq_steer rfl
      rw [hlen]
      simp [edgeCount, Instruction.branchTargets]
      rfl
  | ret ty =>
    have htargets : ∀ value, p.BlocksOf (layout.normal k) (Op.ret value).targets := by
      have hnil : layout.normal k = [] := eq_nil_of_length_eq_zero hlen
      intro value
      rw [hnil]
      rfl
    cases ty with
    | none =>
      refine .seq (.pure (Q := fun v p' => v = none ∧ p = p') ⟨rfl, rfl⟩) ?_
      rintro _ _ ⟨rfl, rfl⟩
      refine .bind (.get ?_)
      dsimp only
      split
      · exact .seq (Q := fun _ _ => False) (.fault _) fun _ _ h => h.elim
      · next hleft =>
          refine (Popped.refl h).end_ensures rfl rfl (htargets none) ?_ ?_
          · intro _ R S _ D start env _
            rfl
          · rintro hs _ ⟨⟩
            simpa [hs, OperandStack.depth] using hleft
    | some kind =>
      refine .seq (.map (S := fun v p' => ∃ w, v = some w ∧ Popped p p' b 1 [w])
        ((popValue_ensures h).mono fun w p' hpop => ⟨w, rfl, hpop⟩)) ?_
      rintro _ p1 ⟨w, rfl, hpop⟩
      refine .bind (.get ?_)
      dsimp only
      split
      · exact .seq (Q := fun _ _ => False) (.fault _) fun _ _ h => h.elim
      · next hleft =>
          refine hpop.end_ensures rfl rfl (htargets (some w)) ?_ ?_
          · intro _ R S hf D start env hag
            rw [exec_eq_steer rfl, Machine.Frame.steer, withTop_frame hpop hf hag]
            rfl
          · rintro hs _ ⟨⟩
            have hdepth := hpop.depth
            have hempty : p.stack.slots.length - 1 = 0 := by
              simpa [hs, OperandStack.depth, hpop.stack] using hleft
            exact Nat.le_antisymm (Nat.sub_eq_zero_iff_le.1 hempty) hdepth
  | throw =>
    refine .seq (popValue_ensures h) fun v p1 hpop => ?_
    refine .bind (.modifying ?_)
    have h1 := hpop.inBlock
    have h2 : InBlock (p1.withStack p1.stack.clear) b :=
      h1.withStack (fun slot hslot => absurd hslot (by simp [OperandStack.clear])) h1.locals
        h1.distinct (Nat.zero_le _)
    have hwithin := within_withStack h1.sound p1.stack.clear b
    refine emitEnd_ensures h2 (hpop.within.trans hwithin) hpop.insns ?_ rfl ?_ ?_
    · intro w hw
      rw [mem_singleton.1 hw]
      exact hpop.usable mem_cons_self
    · have hnil : layout.normal k = [] := eq_nil_of_length_eq_zero hlen
      rw [hnil]
      rfl
    · intro _ R S hf D start env hag
      rw [exec_eq_steer rfl, Machine.Frame.steer,
        withTop_frame hpop (hf.of_within hwithin) hag]
  | _ => exact Bool.noConfusion (show false = true from hends)

end Dissolve.Lift
