import Dissolve.Proofs.Ssa.Tables

/-!
# Proofs.Ssa.Exact — definitions and users in step with the code

`Function.Exact` says that the bookkeeping of a function is exact: a value records as its definition
the live place that defines it and as its users the places that read it, and a live instruction or
phi is listed once, by the block it belongs to. Every edit keeps a function exact; for the edits that
rewrite many places the lemmas also say in closed form what the function looks like afterwards.
Exactness can be decided entry by entry.
-/

namespace Dissolve.Ssa.Function

open List

variable {f : Function} {b : BlockId} {v : ValueId} {i : InsnId} {p : PhiId} {s : Site}
  {op : Op} {dest : Option ValueId} {g : Block → Block}

def Defines (f : Function) (v : ValueId) : Site → Prop
  | .insn i => (f.insn i).dest = some v
  | .phi p => (f.phi p).removed = false ∧ (f.phi p).value = v

def Reads (f : Function) (v : ValueId) : Site → Prop
  | .insn i => v ∈ (f.insn i).op.operands
  | .phi p => v ∈ (f.phi p).operands

/-- Definitions, users and the lists of the blocks say what the instructions and phis say. -/
structure Exact (f : Function) : Prop where
  insn_gone : ∀ i, (f.insn i).removed = true → (f.insn i).op = .nop ∧ (f.insn i).dest = none
  phi_gone : ∀ p, (f.phi p).removed = true → (f.phi p).operands = []
  insns_iff : ∀ b i, i ∈ (f.block b).insns ↔ (f.insn i).removed = false ∧ (f.insn i).block = b
  insns_nodup : ∀ b, (f.block b).insns.Nodup
  phis_iff : ∀ b p, p ∈ (f.block b).phis ↔ (f.phi p).removed = false ∧ (f.phi p).block = b
  phis_nodup : ∀ b, (f.block b).phis.Nodup
  definition_iff : ∀ v s, (f.value v).definition = some s ↔ f.Defines v s
  users_iff : ∀ v s, s ∈ (f.value v).users ↔ f.Reads v s
  users_nodup : ∀ v, (f.value v).users.Nodup

lemma insn_of_size_le (f : Function) (h : f.insns.size ≤ i.index) : f.insn i = default := by
  simp [insn, Array.getElem?_eq_none h]

lemma lt_insns_of_op (f : Function) (hop : (f.insn i).op ≠ .nop) : f.HasInsn i := by
  by_contra hge
  exact hop (by rw [f.insn_of_size_le (Nat.le_of_not_lt hge)]; rfl)

lemma lt_insns_of_dest (f : Function) (hd : (f.insn i).dest = some v) : f.HasInsn i := by
  by_contra hge
  rw [f.insn_of_size_le (Nat.le_of_not_lt hge)] at hd
  cases hd

lemma phi_of_size_le (f : Function) (h : f.phis.size ≤ p.index) : f.phi p = default := by
  simp [phi, Array.getElem?_eq_none h]

lemma value_of_size_le (f : Function) (h : f.values.size ≤ v.index) : f.value v = default := by
  simp [value, Array.getElem?_eq_none h]

@[simp] lemma definition_default : (default : Value).definition = none := rfl

@[simp] lemma users_default : (default : Value).users = [] := rfl

@[simp] lemma op_default : (default : Instruction).op = .nop := rfl

@[simp] lemma dest_default : (default : Instruction).dest = none := rfl

@[simp] lemma removed_default : (default : Instruction).removed = true := rfl

@[simp] lemma operands_default : (default : Phi).operands = [] := rfl

@[simp] lemma phi_removed_default : (default : Phi).removed = true := rfl

section Shed

variable {g : Function} {d : Site → Prop} [DecidablePred d]
  (hi : ∀ i, g.insn i = if d (.insn i) then (f.insn i).gone else f.insn i)
  (hp : ∀ p, g.phi p = if d (.phi p) then (f.phi p).gone else f.phi p)
include hi hp

lemma defines_shed (v : ValueId) (s : Site) : g.Defines v s ↔ f.Defines v s ∧ ¬d s := by
  cases s with
  | insn i =>
    rw [Defines, Defines, hi]
    split <;> simp [*, Instruction.gone]
  | phi p =>
    rw [Defines, Defines, hp]
    split <;> simp [*, Phi.gone]

lemma reads_shed (v : ValueId) (s : Site) : g.Reads v s ↔ f.Reads v s ∧ ¬d s := by
  cases s with
  | insn i =>
    rw [Reads, Reads, hi]
    split <;> simp [*, Instruction.gone, Op.operands]
  | phi p =>
    rw [Reads, Reads, hp]
    split <;> simp [*, Phi.gone]

/-- Places are removed exactly: lists, definitions and users lose them and nothing else. -/
lemma Exact.shed (h : f.Exact)
    (hbi : ∀ b i, i ∈ (g.block b).insns ↔ i ∈ (f.block b).insns ∧ ¬d (.insn i))
    (hni : ∀ b, (g.block b).insns.Nodup)
    (hbp : ∀ b p, p ∈ (g.block b).phis ↔ p ∈ (f.block b).phis ∧ ¬d (.phi p))
    (hnp : ∀ b, (g.block b).phis.Nodup)
    (hd : ∀ v s, (g.value v).definition = some s ↔ (f.value v).definition = some s ∧ ¬d s)
    (hu : ∀ v s, s ∈ (g.value v).users ↔ s ∈ (f.value v).users ∧ ¬d s)
    (hn : ∀ v, (g.value v).users.Nodup) : g.Exact := by
  refine ⟨fun i => ?_, fun p => ?_, fun b i => ?_, hni, fun b p => ?_, hnp, fun v s => ?_,
    fun v s => ?_, hn⟩
  · rw [hi]
    split
    · exact fun _ => ⟨rfl, rfl⟩
    · exact h.insn_gone i
  · rw [hp]
    split
    · exact fun _ => rfl
    · exact h.phi_gone p
  · rw [hbi, h.insns_iff, hi]
    split <;> simp [*, Instruction.gone]
  · rw [hbp, h.phis_iff, hp]
    split <;> simp [*, Phi.gone]
  · rw [hd, h.definition_iff, defines_shed hi hp]
  · rw [hu, h.users_iff, reads_shed hi hp]

end Shed

/-- A place is added exactly: lists, definitions and users gain it and nothing else. -/
lemma Exact.grow {g : Function} (h : f.Exact) (new : Site)
    (hi : ∀ i, .insn i ≠ new → g.insn i = f.insn i) (hp : ∀ p, .phi p ≠ new → g.phi p = f.phi p)
    (hli : ∀ i, .insn i = new → f.insn i = default ∧ g.LiveInsn i)
    (hlp : ∀ p, .phi p = new → f.phi p = default ∧ g.LivePhi p)
    (hbi : ∀ b i, i ∈ (g.block b).insns ↔
      i ∈ (f.block b).insns ∨ .insn i = new ∧ (g.insn i).block = b)
    (hni : ∀ b, (g.block b).insns.Nodup)
    (hbp : ∀ b p, p ∈ (g.block b).phis ↔ p ∈ (f.block b).phis ∨ .phi p = new ∧ (g.phi p).block = b)
    (hnp : ∀ b, (g.block b).phis.Nodup) (hd : ∀ v s, (g.value v).definition = some s ↔
      (f.value v).definition = some s ∨ s = new ∧ g.Defines v s)
    (hu : ∀ v s, s ∈ (g.value v).users ↔ s ∈ (f.value v).users ∨ s = new ∧ g.Reads v s)
    (hn : ∀ v, (g.value v).users.Nodup) : g.Exact := by
  have hsame (v : ValueId) (s : Site) (hs : s ≠ new) :
      (g.Defines v s ↔ f.Defines v s) ∧ (g.Reads v s ↔ f.Reads v s) := by
    cases s with
    | insn i => simp [Defines, Reads, hi i hs]
    | phi p => simp [Defines, Reads, hp p hs]
  have hold (v : ValueId) : ¬f.Defines v new ∧ ¬f.Reads v new := by
    cases new with
    | insn i => simp [Defines, Reads, (hli i rfl).1, Op.operands]
    | phi p => simp [Defines, Reads, (hlp p rfl).1]
  refine ⟨fun i => ?_, fun p => ?_, fun b i => ?_, hni, fun b p => ?_, hnp, fun v s => ?_,
    fun v s => ?_, hn⟩
  · by_cases heq : .insn i = new
    · simp [(hli i heq).2]
    · rw [hi i heq]
      exact h.insn_gone i
  · by_cases heq : .phi p = new
    · simp [(hlp p heq).2]
    · rw [hp p heq]
      exact h.phi_gone p
  · rw [hbi, h.insns_iff]
    by_cases heq : .insn i = new
    · simp [heq, hli i heq]
    · simp [heq, hi i heq]
  · rw [hbp, h.phis_iff]
    by_cases heq : .phi p = new
    · simp [heq, hlp p heq]
    · simp [heq, hp p heq]
  · rw [hd, h.definition_iff]
    by_cases heq : s = new
    · simp [heq, hold]
    · simp [heq, hsame v s heq]
  · rw [hu, h.users_iff]
    by_cases heq : s = new
    · simp [heq, hold]
    · simp [heq, hsame v s heq]

namespace Exact

variable {g : Function}

lemma empty (method : MethodRef) (isStatic : Bool) : (Function.empty method isStatic).Exact := by
  have hi : ∀ i, (Function.empty method isStatic).insn i = default := fun i =>
    insn_of_size_le _ (Nat.zero_le _)
  have hp : ∀ p, (Function.empty method isStatic).phi p = default := fun p =>
    phi_of_size_le _ (Nat.zero_le _)
  have hv : ∀ v, (Function.empty method isStatic).value v = default := fun v =>
    value_of_size_le _ (Nat.zero_le _)
  have hb : ∀ b, (Function.empty method isStatic).block b = Block.gone := fun b =>
    block_of_size_le _ (Nat.zero_le _)
  refine ⟨?_, ?_, ?_, ?_, ?_, ?_, ?_, ?_, ?_⟩
  · simp [hi]
  · simp [hp]
  · simp [hi, hb, Block.gone]
  · simp [hb, Block.gone]
  · simp [hp, hb, Block.gone]
  · simp [hb, Block.gone]
  · rintro v (i | p) <;> simp [hv, Defines, hi, hp]
  · rintro v (i | p) <;> simp [hv, Reads, hi, hp, Op.operands]
  · simp [hv]

section

variable (h : f.Exact)
include h

lemma reread (hi : ∀ i, ∃ op, g.insn i = { f.insn i with op } ∧ ((f.insn i).removed → op = .nop))
    (hp : ∀ p, ∃ operands, g.phi p = { f.phi p with operands } ∧
      ((f.phi p).removed → operands = [])) (hbi : ∀ b, (g.block b).insns = (f.block b).insns)
    (hbp : ∀ b, (g.block b).phis = (f.block b).phis)
    (hd : ∀ v, (g.value v).definition = (f.value v).definition)
    (hu : ∀ v s, s ∈ (g.value v).users ↔ g.Reads v s) (hn : ∀ v, (g.value v).users.Nodup) :
    g.Exact := by
  refine ⟨fun i => ?_, fun p => ?_, fun b i => ?_, ?_, fun b p => ?_, ?_, fun v s => ?_, hu, hn⟩
  · obtain ⟨op, heq, hop⟩ := hi i
    rw [heq]
    exact fun hr => ⟨hop hr, (h.insn_gone i hr).2⟩
  · obtain ⟨operands, heq, hoperands⟩ := hp p
    rw [heq]
    exact hoperands
  · obtain ⟨op, heq, -⟩ := hi i
    rw [hbi, heq]
    exact h.insns_iff b i
  · simpa only [hbi] using h.insns_nodup
  · obtain ⟨operands, heq, -⟩ := hp p
    rw [hbp, heq]
    exact h.phis_iff b p
  · simpa only [hbp] using h.phis_nodup
  · rw [hd, h.definition_iff]
    cases s with
    | insn i =>
      obtain ⟨op, heq, -⟩ := hi i
      rw [Defines, Defines, heq]
    | phi p =>
      obtain ⟨operands, heq, -⟩ := hp p
      rw [Defines, Defines, heq]

lemma congr (hi : ∀ i, g.insn i = f.insn i) (hp : ∀ p, g.phi p = f.phi p)
    (hbi : ∀ b, (g.block b).insns = (f.block b).insns)
    (hbp : ∀ b, (g.block b).phis = (f.block b).phis)
    (hd : ∀ v, (g.value v).definition = (f.value v).definition)
    (hu : ∀ v, (g.value v).users = (f.value v).users) : g.Exact := by
  refine h.reread (fun i => ⟨(f.insn i).op, hi i, fun hr => (h.insn_gone i hr).1⟩)
    (fun p => ⟨(f.phi p).operands, hp p, h.phi_gone p⟩) hbi hbp hd (fun v s => ?_)
    fun v => hu v ▸ h.users_nodup v
  rw [hu, h.users_iff]
  cases s <;> simp [Reads, hi, hp]

lemma lt_of_reads (hr : f.Reads v s) : f.HasValue v :=
  f.lt_values_of_mem_users ((h.users_iff v s).2 hr)

lemma live_of_dest (hd : (f.insn i).dest = some v) : f.LiveInsn i := by
  by_contra hc
  have := (h.insn_gone i (by simpa using hc)).2
  simp [this] at hd

lemma live_of_op (hop : (f.insn i).op ≠ .nop) : f.LiveInsn i := by
  by_contra hc
  exact hop (h.insn_gone i (by simpa using hc)).1

lemma live_of_terminator (hterm : (f.insn i).op.isTerminator) : f.LiveInsn i :=
  h.live_of_op fun hop => by simp [hop, Op.isTerminator] at hterm

lemma live_of_reads_insn (hr : v ∈ (f.insn i).op.operands) : f.LiveInsn i :=
  h.live_of_op fun hop => by simp [hop, Op.operands] at hr

lemma live_of_reads_phi (hr : v ∈ (f.phi p).operands) : f.LivePhi p := by
  by_contra hc
  have := h.phi_gone p (by simpa using hc)
  simp [this] at hr

lemma defines_unique {t : Site} (hs : f.Defines v s) (ht : f.Defines v t) : s = t := by
  rw [← h.definition_iff] at hs ht
  exact Option.some.inj (hs.symm.trans ht)

lemma insn_unique {j : InsnId} (hi : (f.insn i).dest = some v)
    (hj : (f.insn j).dest = some v) : i = j :=
  Site.insn.inj (h.defines_unique (v := v) hi hj)

lemma of_split {before after : List InsnId} (hb : (f.block b).insns = before ++ i :: after) :
    f.LiveInsn i ∧ (f.insn i).block = b :=
  (h.insns_iff b i).1 (by simp [hb])

lemma not_mem_of_split {before after : List InsnId} (hb : (f.block b).insns = before ++ i :: after) :
    i ∉ before ∧ i ∉ after := by
  have hnodup := h.insns_nodup b
  rw [hb, nodup_append] at hnodup
  exact ⟨fun hmem => hnodup.2.2 i hmem i mem_cons_self rfl, (nodup_cons.1 hnodup.2.1).1⟩

lemma exists_split (hi : f.LiveInsn i) :
    ∃ before after, (f.block (f.insn i).block).insns = before ++ i :: after :=
  append_of_mem ((h.insns_iff _ i).2 ⟨hi, rfl⟩)

end

end Exact

/-! ## Blocks, values and names -/

lemma block_addBlock (f : Function) (b : BlockId) :
    f.addBlock.2.block b = if b.index = f.blocks.size then {} else f.block b := by
  simp only [block, addBlock, getD_push]

lemma Exact.addBlock (h : f.Exact) : f.addBlock.2.Exact := by
  refine h.congr (fun _ => rfl) (fun _ => rfl) ?_ ?_ (fun _ => rfl) (fun _ => rfl) <;>
  · intro b
    rw [block_addBlock]
    split
    · rw [f.block_of_size_le (by omega)]
      rfl
    · rfl

lemma value_addValue (f : Function) (ty : ValueType) (v : ValueId) :
    (f.addValue ty).2.value v = if v.index = f.values.size then { ty } else f.value v := by
  simp only [value, addValue, getD_push]

lemma Exact.addValue (h : f.Exact) (ty : ValueType) : (f.addValue ty).2.Exact := by
  refine h.congr (fun _ => rfl) (fun _ => rfl) (fun _ => rfl) (fun _ => rfl) ?_ ?_ <;>
  · intro v
    rw [value_addValue]
    split
    · rw [f.value_of_size_le (by omega)]
      rfl
    · rfl

lemma Exact.modifyBlock (h : f.Exact) (b : BlockId) (hi : ∀ block, (g block).insns = block.insns)
    (hp : ∀ block, (g block).phis = block.phis) : (f.modifyBlock b g).Exact := by
  refine h.congr (fun _ => rfl) (fun _ => rfl) ?_ ?_ (fun _ => rfl) (fun _ => rfl) <;>
  · intro c
    rw [block_modifyBlock]
    split
    · first | exact hi _ | exact hp _
    · rfl

lemma Exact.setDebugName (h : f.Exact) (v : ValueId) (name : String) :
    (f.setDebugName v name).Exact := by
  refine h.congr (fun _ => rfl) (fun _ => rfl) (fun _ => rfl) (fun _ => rfl) ?_ ?_ <;>
  · intro w
    rw [Function.setDebugName, value_modifyValue]
    split <;> rfl

/-! ## Placing an instruction -/

section Insert

variable (f : Function) (b : BlockId) (n : Nat) (op : Op) (dest : Option ValueId)
  (position : Position)

lemma insn_createInsn (j : InsnId) :
    (f.createInsn b op dest position).2.insn j =
      if j.index = f.insns.size then ⟨op, dest, b, position, false⟩ else f.insn j := by
  simp [createInsn, insn, getD_push]

@[simp] lemma phi_createInsn (p : PhiId) : (f.createInsn b op dest position).2.phi p = f.phi p := by
  simp [createInsn, phi]

@[simp] lemma block_createInsn (c : BlockId) :
    (f.createInsn b op dest position).2.block c = f.block c := by
  simp [createInsn, block]

@[simp] lemma blocks_createInsn : (f.createInsn b op dest position).2.blocks = f.blocks := by
  simp [createInsn]

@[simp] lemma phis_createInsn : (f.createInsn b op dest position).2.phis = f.phis := by
  simp [createInsn]

@[simp] lemma size_values_createInsn :
    (f.createInsn b op dest position).2.values.size = f.values.size := by
  simp [createInsn]

lemma value_createInsn (v : ValueId) :
    (f.createInsn b op dest position).2.value v =
      ((f.addUsers (.insn ⟨f.insns.size⟩) op.operands).setDest dest
        (some (.insn ⟨f.insns.size⟩))).value v := rfl

lemma definition_createInsn (v : ValueId) :
    ((f.createInsn b op dest position).2.value v).definition =
      if dest = some v ∧ v.index < f.values.size then some (.insn ⟨f.insns.size⟩)
      else (f.value v).definition := by
  rw [value_createInsn, definition_setDest, size_values_addUsers, definition_addUsers]

lemma mem_users_createInsn (v : ValueId) (s : Site) :
    s ∈ ((f.createInsn b op dest position).2.value v).users ↔
      s ∈ (f.value v).users ∨
        (s = .insn ⟨f.insns.size⟩ ∧ v ∈ op.operands ∧ f.HasValue v) := by
  rw [value_createInsn, users_setDest, mem_users_addUsers]

lemma insertInsn_snd : (f.insertInsn b n op dest position).2 =
    (f.createInsn b op dest position).2.modifyBlock b fun block =>
      { block with insns := block.insns.take n ++ ⟨f.insns.size⟩ :: block.insns.drop n } := rfl

lemma modifyBlock_congr {g' : Block → Block} (h : g (f.block b) = g' (f.block b)) :
    f.modifyBlock b g = f.modifyBlock b g' := by
  have hblocks : f.blocks.modify b.index g = f.blocks.modify b.index g' := by
    refine Array.ext (by simp) fun i hi hi' => ?_
    rw [Array.getElem_modify, Array.getElem_modify]
    split
    · rename_i hbi
      subst hbi
      have hlt : f.HasBlock b := by simpa using hi
      simpa [block, hlt] using h
    · rfl
  rw [modifyBlock, modifyBlock, hblocks]

lemma appendInsn_eq :
    f.appendInsn b op dest position = f.insertInsn b (f.block b).insns.length op dest position := by
  refine Prod.ext rfl ?_
  refine modifyBlock_congr (f.createInsn b op dest position).2 b ?_
  simp

end Insert

lemma Exact.insertInsn (h : f.Exact) (n : Nat) (position : Position)
    (hb : f.HasBlock b) (hops : ∀ v ∈ op.operands, f.HasValue v)
    (hdest : ∀ d, dest = some d → f.HasValue d ∧ (f.value d).definition = none) :
    (f.insertInsn b n op dest position).2.Exact := by
  have hold : f.insn ⟨f.insns.size⟩ = default := f.insn_of_size_le le_rfl
  have hnew : ∀ c, (⟨f.insns.size⟩ : InsnId) ∉ (f.block c).insns := by
    intro c hc
    have := ((h.insns_iff c _).1 hc).1
    simp [hold] at this
  rw [insertInsn_snd]
  have hinsn := f.insn_createInsn b op dest position
  refine h.grow (.insn ⟨f.insns.size⟩) (fun i hi => ?_) (by simp)
    (by simp [hold, LiveInsn, hinsn]) (by simp) (fun c i => ?_) (fun c => ?_) (fun c p => ?_)
    (fun c => ?_) (fun v s => ?_) (fun v s => ?_) fun v => ?_
  · rw [insn_modifyBlock, hinsn, if_neg (by simpa [InsnId.eq_iff] using hi)]
  · rw [block_modifyBlock, block_createInsn, blocks_createInsn, insn_modifyBlock]
    by_cases hi : i = ⟨f.insns.size⟩
    · by_cases hbc : b = c
      · simp [hi, hinsn, ← hbc, hb]
      · simp [hi, hinsn, hbc, hnew]
    · split
      · simp only [mem_append, mem_cons, hi, false_or, Site.insn.injEq, false_and, or_false]
        rw [← mem_append, take_append_drop]
      · simp [hi]
  · rw [block_modifyBlock, block_createInsn]
    split
    · have hperm : ((f.block c).insns.take n ++ ⟨f.insns.size⟩ :: (f.block c).insns.drop n).Perm
          (⟨f.insns.size⟩ :: (f.block c).insns) := by
        have hmiddle := @perm_middle _ (⟨f.insns.size⟩ : InsnId) ((f.block c).insns.take n)
          ((f.block c).insns.drop n)
        rwa [take_append_drop] at hmiddle
      exact hperm.nodup_iff.2 (nodup_cons.2 ⟨hnew c, h.insns_nodup c⟩)
    · exact h.insns_nodup c
  · rw [block_modifyBlock, block_createInsn]
    split <;> simp
  · rw [block_modifyBlock, block_createInsn]
    split <;> exact h.phis_nodup c
  · rw [value_modifyBlock, definition_createInsn]
    by_cases hv : dest = some v
    · obtain ⟨hlt, hnone⟩ := hdest v hv
      rw [if_pos ⟨hv, hlt⟩, hnone, Option.some.injEq]
      refine ⟨?_, fun hs => (hs.resolve_left nofun).1.symm⟩
      rintro rfl
      exact .inr ⟨rfl, by simpa [Defines, hinsn] using hv⟩
    · rw [if_neg fun hc => hv hc.1]
      refine ⟨.inl, fun hs => hs.resolve_right ?_⟩
      rintro ⟨rfl, hs⟩
      exact hv (by simpa [Defines, hinsn] using hs)
  · rw [value_modifyBlock, mem_users_createInsn]
    refine or_congr_right (and_congr_right ?_)
    rintro rfl
    simpa [Reads, hinsn] using hops v
  · rw [value_modifyBlock, value_createInsn, users_setDest]
    exact f.nodup_users_addUsers _ _ _ (h.users_nodup v)

lemma Exact.appendInsn (h : f.Exact) (position : Position) (hb : f.HasBlock b)
    (hops : ∀ v ∈ op.operands, f.HasValue v)
    (hdest : ∀ d, dest = some d → f.HasValue d ∧ (f.value d).definition = none) :
    (f.appendInsn b op dest position).2.Exact := by
  rw [appendInsn_eq]
  exact h.insertInsn _ position hb hops hdest

/-! ## Deciding exactness -/

instance (f : Function) (v : ValueId) (s : Site) : Decidable (f.Defines v s) :=
  match s with
  | .insn i => inferInstanceAs (Decidable ((f.insn i).dest = some v))
  | .phi p => inferInstanceAs (Decidable ((f.phi p).removed = false ∧ (f.phi p).value = v))

instance (f : Function) (v : ValueId) (s : Site) : Decidable (f.Reads v s) :=
  match s with
  | .insn i => inferInstanceAs (Decidable (v ∈ (f.insn i).op.operands))
  | .phi p => inferInstanceAs (Decidable (v ∈ (f.phi p).operands))

def InsnExact (f : Function) (i : InsnId) : Prop :=
  ((f.insn i).removed = true → (f.insn i).op = .nop ∧ (f.insn i).dest = none) ∧
    ((f.insn i).removed = false → i ∈ (f.block (f.insn i).block).insns) ∧
      (∀ v ∈ (f.insn i).dest, (f.value v).definition = some (.insn i)) ∧
        ∀ v ∈ (f.insn i).op.operands, .insn i ∈ (f.value v).users

def PhiExact (f : Function) (p : PhiId) : Prop :=
  ((f.phi p).removed = true → (f.phi p).operands = []) ∧
    ((f.phi p).removed = false → p ∈ (f.block (f.phi p).block).phis ∧
      (f.value (f.phi p).value).definition = some (.phi p)) ∧
        ∀ v ∈ (f.phi p).operands, .phi p ∈ (f.value v).users

def BlockExact (f : Function) (b : BlockId) : Prop :=
  (∀ i ∈ (f.block b).insns, (f.insn i).removed = false ∧ (f.insn i).block = b) ∧
    (f.block b).insns.Nodup ∧
      (∀ p ∈ (f.block b).phis, (f.phi p).removed = false ∧ (f.phi p).block = b) ∧
        (f.block b).phis.Nodup

def ValueExact (f : Function) (v : ValueId) : Prop :=
  (∀ s ∈ (f.value v).definition, f.Defines v s) ∧ (∀ s ∈ (f.value v).users, f.Reads v s) ∧
    (f.value v).users.Nodup

instance (f : Function) (i : InsnId) : Decidable (f.InsnExact i) :=
  inferInstanceAs (Decidable (_ ∧ _ ∧ _ ∧ _))

instance (f : Function) (p : PhiId) : Decidable (f.PhiExact p) :=
  inferInstanceAs (Decidable (_ ∧ _ ∧ _))

instance (f : Function) (b : BlockId) : Decidable (f.BlockExact b) :=
  inferInstanceAs (Decidable (_ ∧ _ ∧ _ ∧ _))

instance (f : Function) (v : ValueId) : Decidable (f.ValueExact v) :=
  inferInstanceAs (Decidable (_ ∧ _ ∧ _))

lemma exact_iff_entries (f : Function) : f.Exact ↔
    (∀ i, f.InsnExact i) ∧ (∀ p, f.PhiExact p) ∧ (∀ b, f.BlockExact b) ∧ ∀ v, f.ValueExact v := by
  constructor
  · intro h
    refine ⟨fun i => ⟨h.insn_gone i, ?_, ?_, ?_⟩, fun p => ⟨h.phi_gone p, ?_, ?_⟩,
      fun b => ⟨fun i => (h.insns_iff b i).1, h.insns_nodup b, fun p => (h.phis_iff b p).1,
        h.phis_nodup b⟩,
      fun v => ⟨fun s => (h.definition_iff v s).1, fun s => (h.users_iff v s).1, h.users_nodup v⟩⟩
    · exact fun hlive => (h.insns_iff _ i).2 ⟨hlive, rfl⟩
    · exact fun v hv => (h.definition_iff v (.insn i)).2 hv
    · exact fun v hv => (h.users_iff v (.insn i)).2 hv
    · exact fun hlive => ⟨(h.phis_iff _ p).2 ⟨hlive, rfl⟩, (h.definition_iff _ (.phi p)).2 ⟨hlive, rfl⟩⟩
    · exact fun v hv => (h.users_iff v (.phi p)).2 hv
  · rintro ⟨hinsn, hphi, hblock, hvalue⟩
    refine ⟨fun i => (hinsn i).1, fun p => (hphi p).1, ?_, fun b => (hblock b).2.1, ?_,
      fun b => (hblock b).2.2.2, ?_, ?_, fun v => (hvalue v).2.2⟩
    · exact fun b i => ⟨(hblock b).1 i, fun hi => hi.2 ▸ (hinsn i).2.1 hi.1⟩
    · exact fun b p => ⟨(hblock b).2.2.1 p, fun hp => hp.2 ▸ ((hphi p).2.1 hp.1).1⟩
    · refine fun v s => ⟨(hvalue v).1 s, fun hs => ?_⟩
      cases s with
      | insn i => exact (hinsn i).2.2.1 v hs
      | phi p => exact hs.2 ▸ ((hphi p).2.1 hs.1).2
    · refine fun v s => ⟨(hvalue v).2.1 s, fun hs => ?_⟩
      cases s with
      | insn i => exact (hinsn i).2.2.2 v hs
      | phi p => exact (hphi p).2.2 v hs

lemma exact_iff_tables (f : Function) : f.Exact ↔
    (∀ n < f.insns.size, f.InsnExact ⟨n⟩) ∧ (∀ n < f.phis.size, f.PhiExact ⟨n⟩) ∧
      (∀ n < f.blocks.size, f.BlockExact ⟨n⟩) ∧ ∀ n < f.values.size, f.ValueExact ⟨n⟩ := by
  rw [exact_iff_entries]
  refine and_congr ⟨fun h n _ => h ⟨n⟩, fun h i => ?_⟩ (and_congr ⟨fun h n _ => h ⟨n⟩, fun h p => ?_⟩
    (and_congr ⟨fun h n _ => h ⟨n⟩, fun h b => ?_⟩ ⟨fun h n _ => h ⟨n⟩, fun h v => ?_⟩))
  · rcases Nat.lt_or_ge i.index f.insns.size with hlt | hle
    · exact h i.index hlt
    · simp [InsnExact, f.insn_of_size_le hle, Op.operands]
  · rcases Nat.lt_or_ge p.index f.phis.size with hlt | hle
    · exact h p.index hlt
    · simp [PhiExact, f.phi_of_size_le hle]
  · rcases Nat.lt_or_ge b.index f.blocks.size with hlt | hle
    · exact h b.index hlt
    · simp [BlockExact, f.block_of_size_le hle, Block.gone]
  · rcases Nat.lt_or_ge v.index f.values.size with hlt | hle
    · exact h v.index hlt
    · simp [ValueExact, f.value_of_size_le hle]

instance (f : Function) : Decidable f.Exact :=
  decidable_of_iff _ f.exact_iff_tables.symm

end Dissolve.Ssa.Function
