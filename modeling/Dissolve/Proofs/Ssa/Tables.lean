import Mathlib
import Dissolve.Ssa.Edit

/-!
# Proofs.Ssa.Tables — reading a function after an edit

The tables of a function are read through `block`, `value`, `insn` and `phi`. The lemmas below say
what each of these sees after the elementary edits, so that no later proof opens a table:

* an edit of one table is invisible in the three others,
* a replaced entry is seen at its own place, if there is one, and nowhere else,
* an entry behind the end of a table reads as removed, so a live entry has a place.
-/

namespace Dissolve

variable {a b : BlockId}

lemma BlockId.eq_iff : a = b ↔ a.index = b.index := by
  cases a; cases b; simp

lemma ValueId.eq_iff {a b : ValueId} : a = b ↔ a.index = b.index := by
  cases a; cases b; simp

lemma InsnId.eq_iff {a b : InsnId} : a = b ↔ a.index = b.index := by
  cases a; cases b; simp

lemma PhiId.eq_iff {a b : PhiId} : a = b ↔ a.index = b.index := by
  cases a; cases b; simp

namespace Ssa

/-! ## Arrays read with a default -/

variable {α : Type}

lemma getD_modify (xs : Array α) (i j : Nat) (g : α → α) (d : α) :
    (xs.modify i g)[j]?.getD d = if i = j ∧ i < xs.size then g (xs[j]?.getD d) else xs[j]?.getD d := by
  rw [Array.getElem?_modify]
  by_cases hij : i = j
  · subst hij
    by_cases hlt : i < xs.size <;> simp [hlt]
  · simp [hij]

lemma getD_push (xs : Array α) (x : α) (j : Nat) (d : α) :
    (xs.push x)[j]?.getD d = if j = xs.size then x else xs[j]?.getD d := by
  rw [Array.getElem?_push]
  split <;> rfl

lemma lt_size_of_getD_ne {xs : Array α} {j : Nat} {d : α} (h : xs[j]?.getD d ≠ d) :
    j < xs.size := by
  by_contra hle
  simp [Array.getElem?_eq_none (Nat.le_of_not_lt hle)] at h

/-! ## Users of a value -/

namespace Value

variable (value : Value) (user s : Site)

@[simp] lemma definition_addUser : (value.addUser user).definition = value.definition := by
  unfold addUser
  split <;> rfl

@[simp] lemma ty_addUser : (value.addUser user).ty = value.ty := by
  unfold addUser
  split <;> rfl

lemma mem_users_addUser : s ∈ (value.addUser user).users ↔ s ∈ value.users ∨ s = user := by
  unfold addUser
  split
  · rename_i hmem
    constructor
    · exact .inl
    · rintro (h | rfl)
      · exact h
      · exact hmem
  · simp

lemma mem_users_removeUser : s ∈ (value.removeUser user).users ↔ s ∈ value.users ∧ s ≠ user := by
  simp [removeUser]

lemma nodup_users_addUser (h : value.users.Nodup) : (value.addUser user).users.Nodup := by
  unfold addUser
  split
  · exact h
  · rename_i hnot
    refine List.nodup_append.2 ⟨h, by simp, ?_⟩
    intro a ha b hb hab
    rw [List.mem_singleton] at hb
    exact hnot (hb ▸ hab ▸ ha)

end Value

namespace Function

variable {v : ValueId} {s : Site} (f : Function)

/-! ## Places of live entries -/

abbrev HasBlock (b : BlockId) : Prop := b.index < f.blocks.size

abbrev HasInsn (i : InsnId) : Prop := i.index < f.insns.size

abbrev HasPhi (p : PhiId) : Prop := p.index < f.phis.size

abbrev HasValue (v : ValueId) : Prop := v.index < f.values.size

abbrev LiveBlock (b : BlockId) : Prop := (f.block b).removed = false

abbrev LiveInsn (i : InsnId) : Prop := (f.insn i).removed = false

abbrev LivePhi (p : PhiId) : Prop := (f.phi p).removed = false

lemma lt_blocks_of_live (h : f.LiveBlock b) : f.HasBlock b := by
  refine lt_size_of_getD_ne (d := default) fun hd => ?_
  rw [LiveBlock, block, hd] at h
  exact absurd h (by decide)

lemma lt_insns_of_live {i : InsnId} (h : f.LiveInsn i) : f.HasInsn i := by
  refine lt_size_of_getD_ne (d := default) fun hd => ?_
  rw [LiveInsn, insn, hd] at h
  exact absurd h (by decide)

lemma lt_phis_of_live {p : PhiId} (h : f.LivePhi p) : f.HasPhi p := by
  refine lt_size_of_getD_ne (d := default) fun hd => ?_
  rw [LivePhi, phi, hd] at h
  exact absurd h (by decide)

lemma lt_values_of_definition (h : (f.value v).definition = some s) : f.HasValue v := by
  refine lt_size_of_getD_ne (d := default) fun hd => ?_
  rw [value, hd] at h
  exact absurd h (by simp [default, instInhabitedValue.default])

lemma lt_values_of_mem_users (h : s ∈ (f.value v).users) : f.HasValue v := by
  refine lt_size_of_getD_ne (d := default) fun hd => ?_
  rw [value, hd] at h
  exact absurd h (by simp [default, instInhabitedValue.default])

lemma block_of_size_le (h : f.blocks.size ≤ b.index) : f.block b = Block.gone := by
  simp [block, Array.getElem?_eq_none h, default]

/-! ## One entry replaced -/

lemma block_modifyBlock (b c : BlockId) (g : Block → Block) :
    (f.modifyBlock b g).block c =
      if b = c ∧ b.index < f.blocks.size then g (f.block c) else f.block c := by
  simp only [block, modifyBlock, getD_modify, BlockId.eq_iff]

lemma block_modifyBlock_ne {c : BlockId} (g : Block → Block) (h : b ≠ c) :
    (f.modifyBlock b g).block c = f.block c := by
  simp [block_modifyBlock, h]

lemma value_modifyValue (v w : ValueId) (g : Value → Value) :
    (f.modifyValue v g).value w =
      if v = w ∧ v.index < f.values.size then g (f.value w) else f.value w := by
  simp only [value, modifyValue, getD_modify, ValueId.eq_iff]

lemma insn_modifyInsn (i j : InsnId) (g : Instruction → Instruction) :
    (f.modifyInsn i g).insn j =
      if i = j ∧ i.index < f.insns.size then g (f.insn j) else f.insn j := by
  simp only [insn, modifyInsn, getD_modify, InsnId.eq_iff]

lemma phi_modifyPhi (p q : PhiId) (g : Phi → Phi) :
    (f.modifyPhi p g).phi q = if p = q ∧ p.index < f.phis.size then g (f.phi q) else f.phi q := by
  simp only [phi, modifyPhi, getD_modify, PhiId.eq_iff]

section Frame

variable (b : BlockId) (v : ValueId) (i : InsnId) (p : PhiId)

@[simp] lemma value_modifyBlock (g : Block → Block) :
    (f.modifyBlock b g).value v = f.value v := rfl

@[simp] lemma insn_modifyBlock (g : Block → Block) : (f.modifyBlock b g).insn i = f.insn i := rfl

@[simp] lemma phi_modifyBlock (g : Block → Block) : (f.modifyBlock b g).phi p = f.phi p := rfl

@[simp] lemma block_modifyValue (g : Value → Value) :
    (f.modifyValue v g).block b = f.block b := rfl

@[simp] lemma insn_modifyValue (g : Value → Value) : (f.modifyValue v g).insn i = f.insn i := rfl

@[simp] lemma phi_modifyValue (g : Value → Value) : (f.modifyValue v g).phi p = f.phi p := rfl

@[simp] lemma block_modifyInsn (g : Instruction → Instruction) :
    (f.modifyInsn i g).block b = f.block b := rfl

@[simp] lemma value_modifyInsn (g : Instruction → Instruction) :
    (f.modifyInsn i g).value v = f.value v := rfl

@[simp] lemma phi_modifyInsn (g : Instruction → Instruction) :
    (f.modifyInsn i g).phi p = f.phi p := rfl

@[simp] lemma block_modifyPhi (g : Phi → Phi) : (f.modifyPhi p g).block b = f.block b := rfl

@[simp] lemma value_modifyPhi (g : Phi → Phi) : (f.modifyPhi p g).value v = f.value v := rfl

@[simp] lemma insn_modifyPhi (g : Phi → Phi) : (f.modifyPhi p g).insn i = f.insn i := rfl

@[simp] lemma size_blocks_modifyBlock (g : Block → Block) :
    (f.modifyBlock b g).blocks.size = f.blocks.size := by simp [modifyBlock]

@[simp] lemma size_values_modifyValue (g : Value → Value) :
    (f.modifyValue v g).values.size = f.values.size := by simp [modifyValue]

@[simp] lemma size_insns_modifyInsn (g : Instruction → Instruction) :
    (f.modifyInsn i g).insns.size = f.insns.size := by simp [modifyInsn]

@[simp] lemma size_phis_modifyPhi (g : Phi → Phi) :
    (f.modifyPhi p g).phis.size = f.phis.size := by simp [modifyPhi]

@[simp] lemma blocks_modifyValue (g : Value → Value) :
    (f.modifyValue v g).blocks = f.blocks := rfl

@[simp] lemma insns_modifyValue (g : Value → Value) : (f.modifyValue v g).insns = f.insns := rfl

@[simp] lemma phis_modifyValue (g : Value → Value) : (f.modifyValue v g).phis = f.phis := rfl

@[simp] lemma values_modifyBlock (g : Block → Block) :
    (f.modifyBlock b g).values = f.values := rfl

@[simp] lemma insns_modifyBlock (g : Block → Block) : (f.modifyBlock b g).insns = f.insns := rfl

@[simp] lemma phis_modifyBlock (g : Block → Block) : (f.modifyBlock b g).phis = f.phis := rfl

@[simp] lemma blocks_modifyInsn (g : Instruction → Instruction) :
    (f.modifyInsn i g).blocks = f.blocks := rfl

@[simp] lemma values_modifyInsn (g : Instruction → Instruction) :
    (f.modifyInsn i g).values = f.values := rfl

@[simp] lemma phis_modifyInsn (g : Instruction → Instruction) :
    (f.modifyInsn i g).phis = f.phis := rfl

@[simp] lemma blocks_modifyPhi (g : Phi → Phi) : (f.modifyPhi p g).blocks = f.blocks := rfl

@[simp] lemma values_modifyPhi (g : Phi → Phi) : (f.modifyPhi p g).values = f.values := rfl

@[simp] lemma insns_modifyPhi (g : Phi → Phi) : (f.modifyPhi p g).insns = f.insns := rfl

end Frame

/-! ## Users and definitions -/

lemma foldl_keeps {γ : Type} {k : Function → γ} {edit : Function → α → Function}
    (h : ∀ f x, k (edit f x) = k f) (xs : List α) (f : Function) : k (xs.foldl edit f) = k f := by
  induction xs generalizing f with
  | nil => rfl
  | cons x xs ih => exact (ih (edit f x)).trans (h f x)

section Users

variable (user s : Site) (vs : List ValueId) (v : ValueId)

@[simp] lemma blocks_addUsers : (f.addUsers user vs).blocks = f.blocks :=
  foldl_keeps (k := blocks) (fun _ _ => blocks_modifyValue ..) vs f

@[simp] lemma insns_addUsers : (f.addUsers user vs).insns = f.insns :=
  foldl_keeps (k := insns) (fun _ _ => insns_modifyValue ..) vs f

@[simp] lemma phis_addUsers : (f.addUsers user vs).phis = f.phis :=
  foldl_keeps (k := phis) (fun _ _ => phis_modifyValue ..) vs f

@[simp] lemma size_values_addUsers : (f.addUsers user vs).values.size = f.values.size :=
  foldl_keeps (k := (·.values.size)) (fun _ _ => size_values_modifyValue ..) vs f

@[simp] lemma blocks_removeUsers : (f.removeUsers user vs).blocks = f.blocks :=
  foldl_keeps (k := blocks) (fun _ _ => blocks_modifyValue ..) vs f

@[simp] lemma insns_removeUsers : (f.removeUsers user vs).insns = f.insns :=
  foldl_keeps (k := insns) (fun _ _ => insns_modifyValue ..) vs f

@[simp] lemma phis_removeUsers : (f.removeUsers user vs).phis = f.phis :=
  foldl_keeps (k := phis) (fun _ _ => phis_modifyValue ..) vs f

@[simp] lemma size_values_removeUsers : (f.removeUsers user vs).values.size = f.values.size :=
  foldl_keeps (k := (·.values.size)) (fun _ _ => size_values_modifyValue ..) vs f

@[simp] lemma block_addUsers (b : BlockId) : (f.addUsers user vs).block b = f.block b := by
  simp [block]

@[simp] lemma insn_addUsers (i : InsnId) : (f.addUsers user vs).insn i = f.insn i := by
  simp [insn]

@[simp] lemma phi_addUsers (p : PhiId) : (f.addUsers user vs).phi p = f.phi p := by
  simp [phi]

@[simp] lemma block_removeUsers (b : BlockId) : (f.removeUsers user vs).block b = f.block b := by
  simp [block]

@[simp] lemma insn_removeUsers (i : InsnId) : (f.removeUsers user vs).insn i = f.insn i := by
  simp [insn]

@[simp] lemma phi_removeUsers (p : PhiId) : (f.removeUsers user vs).phi p = f.phi p := by
  simp [phi]

lemma definition_addUsers : ((f.addUsers user vs).value v).definition = (f.value v).definition := by
  refine foldl_keeps (k := fun f => (f.value v).definition) (fun f w => ?_) vs f
  rw [value_modifyValue]
  split <;> simp

lemma ty_addUsers : ((f.addUsers user vs).value v).ty = (f.value v).ty := by
  refine foldl_keeps (k := fun f => (f.value v).ty) (fun f w => ?_) vs f
  rw [value_modifyValue]
  split <;> simp

lemma mem_users_addUsers :
    s ∈ ((f.addUsers user vs).value v).users ↔
      s ∈ (f.value v).users ∨ (s = user ∧ v ∈ vs ∧ v.index < f.values.size) := by
  induction vs generalizing f with
  | nil => simp [addUsers]
  | cons w rest ih =>
    refine (ih (f.modifyValue w (·.addUser user))).trans ?_
    rw [value_modifyValue, size_values_modifyValue, List.mem_cons]
    by_cases hw : w = v
    · subst hw
      by_cases hlt : w.index < f.values.size
      · simp only [hlt, and_self, if_true, Value.mem_users_addUser, true_or, and_true]
        tauto
      · simp [hlt]
    · simp [hw, Ne.symm hw]

lemma nodup_users_addUsers (h : (f.value v).users.Nodup) :
    ((f.addUsers user vs).value v).users.Nodup := by
  induction vs generalizing f with
  | nil => exact h
  | cons w rest ih =>
    refine ih (f.modifyValue w (·.addUser user)) ?_
    rw [value_modifyValue]
    split
    · exact Value.nodup_users_addUser _ _ h
    · exact h

lemma definition_removeUsers :
    ((f.removeUsers user vs).value v).definition = (f.value v).definition := by
  refine foldl_keeps (k := fun f => (f.value v).definition) (fun f w => ?_) vs f
  rw [value_modifyValue]
  split <;> rfl

lemma ty_removeUsers : ((f.removeUsers user vs).value v).ty = (f.value v).ty := by
  refine foldl_keeps (k := fun f => (f.value v).ty) (fun f w => ?_) vs f
  rw [value_modifyValue]
  split <;> rfl

lemma mem_users_removeUsers :
    s ∈ ((f.removeUsers user vs).value v).users ↔ s ∈ (f.value v).users ∧ ¬(s = user ∧ v ∈ vs) := by
  induction vs generalizing f with
  | nil => simp [removeUsers]
  | cons w rest ih =>
    refine (ih (f.modifyValue w (·.removeUser user))).trans ?_
    rw [value_modifyValue, List.mem_cons]
    by_cases hw : w = v
    · subst hw
      by_cases hlt : f.HasValue w
      · simp only [hlt, and_self, if_true, Value.mem_users_removeUser, true_or, and_true]
        tauto
      · have hnone : s ∉ (f.value w).users := fun h => hlt (f.lt_values_of_mem_users h)
        simp [hlt, hnone]
    · simp [hw, Ne.symm hw]

lemma nodup_users_removeUsers (h : (f.value v).users.Nodup) :
    ((f.removeUsers user vs).value v).users.Nodup := by
  induction vs generalizing f with
  | nil => exact h
  | cons w rest ih =>
    refine ih (f.modifyValue w (·.removeUser user)) ?_
    rw [value_modifyValue]
    split
    · exact h.filter _
    · exact h

end Users

section Definitions

variable (v w : ValueId) (site : Option Site) (dest : Option ValueId)

lemma value_setDefinition :
    (f.setDefinition v site).value w =
      if v = w ∧ v.index < f.values.size then { f.value w with definition := site }
      else f.value w :=
  f.value_modifyValue v w _

@[simp] lemma blocks_setDefinition : (f.setDefinition v site).blocks = f.blocks := rfl

@[simp] lemma insns_setDefinition : (f.setDefinition v site).insns = f.insns := rfl

@[simp] lemma phis_setDefinition : (f.setDefinition v site).phis = f.phis := rfl

@[simp] lemma size_values_setDefinition : (f.setDefinition v site).values.size = f.values.size := by
  simp [setDefinition]

@[simp] lemma block_setDefinition (b : BlockId) :
    (f.setDefinition v site).block b = f.block b := rfl

@[simp] lemma insn_setDefinition (i : InsnId) : (f.setDefinition v site).insn i = f.insn i := rfl

@[simp] lemma phi_setDefinition (p : PhiId) : (f.setDefinition v site).phi p = f.phi p := rfl

@[simp] lemma users_setDefinition : ((f.setDefinition v site).value w).users = (f.value w).users := by
  rw [value_setDefinition]
  split <;> rfl

@[simp] lemma ty_setDefinition : ((f.setDefinition v site).value w).ty = (f.value w).ty := by
  rw [value_setDefinition]
  split <;> rfl

@[simp] lemma blocks_setDest : (f.setDest dest site).blocks = f.blocks := by
  cases dest <;> rfl

@[simp] lemma insns_setDest : (f.setDest dest site).insns = f.insns := by
  cases dest <;> rfl

@[simp] lemma phis_setDest : (f.setDest dest site).phis = f.phis := by
  cases dest <;> rfl

@[simp] lemma size_values_setDest : (f.setDest dest site).values.size = f.values.size := by
  cases dest <;> simp [setDest]

@[simp] lemma block_setDest (b : BlockId) : (f.setDest dest site).block b = f.block b := by
  simp [block]

@[simp] lemma insn_setDest (i : InsnId) : (f.setDest dest site).insn i = f.insn i := by
  simp [insn]

@[simp] lemma phi_setDest (p : PhiId) : (f.setDest dest site).phi p = f.phi p := by
  simp [phi]

@[simp] lemma users_setDest : ((f.setDest dest site).value w).users = (f.value w).users := by
  cases dest <;> simp [setDest]

@[simp] lemma ty_setDest : ((f.setDest dest site).value w).ty = (f.value w).ty := by
  cases dest <;> simp [setDest]

lemma definition_setDest :
    ((f.setDest dest site).value w).definition =
      if dest = some w ∧ w.index < f.values.size then site else (f.value w).definition := by
  cases dest with
  | none => simp [setDest]
  | some v =>
    rw [setDest, value_setDefinition]
    by_cases hv : v = w
    · subst hv
      by_cases hlt : f.HasValue v <;> simp [hlt]
    · simp [hv]

end Definitions

end Function

end Ssa

end Dissolve
