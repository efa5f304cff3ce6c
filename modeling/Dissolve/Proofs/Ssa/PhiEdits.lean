import Dissolve.Proofs.Ssa.Exact
import Dissolve.Ssa.PhiCleanup

/-!
# Proofs.Ssa.PhiEdits — adding, filling, replacing and removing phis

What a function looks like after the edits on which phis depend. `replaceAllUses` has a closed form:
every operation and every phi reads through the renaming of the old value to the new one
(`redirect`). Removing a trivial phi after that always succeeds.
-/

namespace Dissolve.Ssa

open List hiding get modify

variable {f : Function} {new old v : ValueId} {p : PhiId}

namespace Op

variable {g h : ValueId → ValueId} {op : Op}

lemma mapOperands_congr (hgh : ∀ v ∈ op.operands, g v = h v) :
    op.mapOperands g = op.mapOperands h := by
  cases op with
  | branch cond left right thenTarget elseTarget =>
    cases right <;> simp_all [mapOperands, operands]
  | ret value => cases value <;> simp_all [mapOperands, operands]
  | _ => simp_all [mapOperands, operands]

lemma mapOperands_id (op : Op) : op.mapOperands id = op := by
  cases op with
  | branch cond left right thenTarget elseTarget => cases right <;> rfl
  | ret value => cases value <;> rfl
  | _ => simp [mapOperands]

lemma mapTargets_id (op : Op) : op.mapTargets id = op := by
  cases op <;> simp [mapTargets]

lemma mapOperands_eq_self (hg : ∀ v ∈ op.operands, g v = v) : op.mapOperands g = op := by
  rw [mapOperands_congr (h := id) hg, mapOperands_id]

lemma mapOperands_mapOperands : (op.mapOperands g).mapOperands h = op.mapOperands (h ∘ g) := by
  cases op with
  | branch cond left right thenTarget elseTarget => cases right <;> rfl
  | ret value => cases value <;> rfl
  | _ => simp [mapOperands]

end Op

namespace Function

/-! ## A new phi -/

section InsertPhi

variable (f : Function) (b : BlockId) (ty : ValueType)

@[simp] lemma insertPhi_fst : (f.insertPhi b ty).1 = ⟨f.phis.size⟩ := rfl

lemma phi_insertPhi (q : PhiId) :
    (f.insertPhi b ty).2.phi q =
      if q.index = f.phis.size then { value := ⟨f.values.size⟩, block := b } else f.phi q := by
  simp only [insertPhi, phi_modifyBlock]
  simp only [phi, addValue, phis_setDefinition, getD_push]

@[simp] lemma insn_insertPhi (i : InsnId) : (f.insertPhi b ty).2.insn i = f.insn i := rfl

@[simp] lemma insns_insertPhi : (f.insertPhi b ty).2.insns = f.insns := rfl

@[simp] lemma size_phis_insertPhi : (f.insertPhi b ty).2.phis.size = f.phis.size + 1 := by
  simp [insertPhi, addValue]

@[simp] lemma size_values_insertPhi : (f.insertPhi b ty).2.values.size = f.values.size + 1 := by
  simp [insertPhi, addValue, setDefinition, modifyValue]

@[simp] lemma size_blocks_insertPhi : (f.insertPhi b ty).2.blocks.size = f.blocks.size := by
  simp [insertPhi, addValue]

lemma value_insertPhi (v : ValueId) :
    (f.insertPhi b ty).2.value v =
      if v.index = f.values.size then { ty, definition := some (.phi ⟨f.phis.size⟩) }
      else f.value v := by
  have hvalue : (f.insertPhi b ty).2.value v =
      ((f.addValue ty).2.setDefinition ⟨f.values.size⟩ (some (.phi ⟨f.phis.size⟩))).value v := rfl
  rw [hvalue, value_setDefinition, value_addValue]
  have hsize : (f.addValue ty).2.values.size = f.values.size + 1 := by simp [addValue]
  by_cases hv : v.index = f.values.size
  · have : (⟨f.values.size⟩ : ValueId) = v := ValueId.eq_iff.2 hv.symm
    simp [this, hv, hsize]
  · have : (⟨f.values.size⟩ : ValueId) ≠ v := fun h => hv (ValueId.eq_iff.1 h).symm
    simp [this, hv]

lemma block_insertPhi (c : BlockId) :
    (f.insertPhi b ty).2.block c =
      if b = c ∧ b.index < f.blocks.size then
        { f.block c with phis := (f.block c).phis ++ [⟨f.phis.size⟩] }
      else f.block c := by
  simp only [insertPhi, block_modifyBlock]
  rfl

end InsertPhi

lemma Exact.insertPhi (h : f.Exact) {b : BlockId} (ty : ValueType)
    (hb : f.HasBlock b) : (f.insertPhi b ty).2.Exact := by
  have hold : f.phi ⟨f.phis.size⟩ = default := f.phi_of_size_le le_rfl
  have hnew : ∀ c, (⟨f.phis.size⟩ : PhiId) ∉ (f.block c).phis := by
    intro c hc
    have := ((h.phis_iff c _).1 hc).1
    simp [hold] at this
  have hnone : f.value ⟨f.values.size⟩ = default := f.value_of_size_le le_rfl
  refine h.grow (.phi ⟨f.phis.size⟩) (by simp) (fun q hq => ?_) (by simp)
    (by simp [hold, LivePhi, phi_insertPhi]) (fun c i => ?_) (fun c => ?_) (fun c q => ?_)
    (fun c => ?_) (fun v s => ?_) (fun v s => ?_) fun v => ?_
  · rw [phi_insertPhi, if_neg (by simpa [PhiId.eq_iff] using hq)]
  · rw [block_insertPhi]
    split <;> simp
  · rw [block_insertPhi]
    split <;> exact h.insns_nodup c
  · rw [block_insertPhi]
    by_cases hq : q = ⟨f.phis.size⟩
    · by_cases hbc : b = c
      · simp [hq, phi_insertPhi, ← hbc, hb]
      · simp [hq, phi_insertPhi, hbc, hnew]
    · split <;> simp [hq]
  · rw [block_insertPhi]
    split
    · refine nodup_append.2 ⟨h.phis_nodup c, by simp, ?_⟩
      intro p hp q hq hpq
      rw [mem_singleton] at hq
      exact hnew c (hq ▸ hpq ▸ hp)
    · exact h.phis_nodup c
  · rw [value_insertPhi]
    split
    · rename_i hv
      obtain rfl : v = ⟨f.values.size⟩ := ValueId.eq_iff.2 hv
      simp only [hnone, definition_default, Option.some.injEq, reduceCtorEq, false_or]
      refine ⟨?_, fun hs => hs.1.symm⟩
      rintro rfl
      exact ⟨rfl, by simp [Defines, phi_insertPhi]⟩
    · rename_i hv
      refine ⟨.inl, fun hs => hs.resolve_right ?_⟩
      rintro ⟨rfl, hs⟩
      simp [Defines, phi_insertPhi, ValueId.eq_iff, Ne.symm hv] at hs
  · have hreads : ¬(s = .phi ⟨f.phis.size⟩ ∧ (f.insertPhi b ty).2.Reads v s) := by
      rintro ⟨rfl, hs⟩
      simp [Reads, phi_insertPhi] at hs
    rw [value_insertPhi]
    split
    · rename_i hv
      simp [hreads, f.value_of_size_le hv.ge]
    · simp [hreads]
  · rw [value_insertPhi]
    split
    · simp
    · exact h.users_nodup v

/-! ## New operands -/

section SetOperands

variable (f : Function) (p : PhiId) (ops : List ValueId)

lemma phi_setPhiOperands (q : PhiId) :
    (f.setPhiOperands p ops).phi q =
      if p = q ∧ p.index < f.phis.size then { f.phi q with operands := ops } else f.phi q := by
  simp [setPhiOperands, phi_modifyPhi]

@[simp] lemma insn_setPhiOperands (i : InsnId) : (f.setPhiOperands p ops).insn i = f.insn i := by
  simp [setPhiOperands]

@[simp] lemma insns_setPhiOperands : (f.setPhiOperands p ops).insns = f.insns := by
  simp [setPhiOperands]

@[simp] lemma block_setPhiOperands (b : BlockId) :
    (f.setPhiOperands p ops).block b = f.block b := by
  simp [setPhiOperands]

@[simp] lemma blocks_setPhiOperands : (f.setPhiOperands p ops).blocks = f.blocks := by
  simp [setPhiOperands]

@[simp] lemma size_values_setPhiOperands :
    (f.setPhiOperands p ops).values.size = f.values.size := by
  simp [setPhiOperands]

@[simp] lemma size_phis_setPhiOperands : (f.setPhiOperands p ops).phis.size = f.phis.size := by
  simp [setPhiOperands]

@[simp] lemma definition_setPhiOperands (v : ValueId) :
    ((f.setPhiOperands p ops).value v).definition = (f.value v).definition := by
  simp [setPhiOperands, definition_addUsers, definition_removeUsers]

@[simp] lemma ty_setPhiOperands (v : ValueId) :
    ((f.setPhiOperands p ops).value v).ty = (f.value v).ty := by
  simp [setPhiOperands, ty_addUsers, ty_removeUsers]

lemma mem_users_setPhiOperands (v : ValueId) (s : Site) :
    s ∈ ((f.setPhiOperands p ops).value v).users ↔
      (s ∈ (f.value v).users ∧ ¬(s = .phi p ∧ v ∈ (f.phi p).operands)) ∨
        (s = .phi p ∧ v ∈ ops ∧ v.index < f.values.size) := by
  simp only [setPhiOperands, value_modifyPhi, mem_users_addUsers, mem_users_removeUsers,
    size_values_removeUsers]

lemma nodup_users_setPhiOperands (h : (f.value v).users.Nodup) :
    ((f.setPhiOperands p ops).value v).users.Nodup :=
  nodup_users_addUsers _ _ _ _ (nodup_users_removeUsers _ _ _ _ h)

end SetOperands

lemma Exact.setPhiOperands (h : f.Exact) {ops : List ValueId}
    (hops : ∀ v ∈ ops, f.HasValue v) (hp : ops = [] ∨ f.LivePhi p) :
    (f.setPhiOperands p ops).Exact := by
  have hlt : ops = [] ∨ f.HasPhi p := hp.imp_right f.lt_phis_of_live
  have hoperands : ∀ q, (f.setPhiOperands p ops).phi q =
      { f.phi q with operands := if p = q then ops else (f.phi q).operands } := by
    intro q
    rw [phi_setPhiOperands]
    by_cases hpq : p = q
    · subst hpq
      by_cases hlt' : f.HasPhi p
      · simp [hlt']
      · have hnil : ops = [] := hlt.resolve_right hlt'
        simp only [hlt', and_false, if_false, hnil, f.phi_of_size_le (Nat.le_of_not_lt hlt'), if_true]
        rfl
    · simp [hpq]
  refine h.reread (fun i => ⟨(f.insn i).op, by simp, fun hr => (h.insn_gone i hr).1⟩)
    (fun q => ⟨_, hoperands q, fun hq => ?_⟩) (by simp) (by simp) (by simp) (fun v s => ?_)
    fun v => f.nodup_users_setPhiOperands p ops (h.users_nodup v)
  · split
    · rename_i hpq
      subst hpq
      exact hp.resolve_right (by simp [hq])
    · exact h.phi_gone q hq
  · rw [mem_users_setPhiOperands, h.users_iff]
    cases s with
    | insn i => simp [Reads]
    | phi q =>
      simp only [Reads, hoperands, Site.phi.injEq]
      by_cases hpq : p = q
      · subst hpq
        simp only [true_and, and_not_self_iff, false_or, if_true]
        exact ⟨fun hv => hv.1, fun hv => ⟨hv, hops v hv⟩⟩
      · simp [hpq, Ne.symm hpq]

/-! ## Reading another value -/

def redirect (old new v : ValueId) : ValueId := if v = old then new else v

@[simp] lemma redirect_old (old new : ValueId) : redirect old new old = new := by simp [redirect]

lemma redirect_of_ne (h : v ≠ old) : redirect old new v = v := by simp [redirect, h]

@[simp] lemma redirect_self (old v : ValueId) : redirect old old v = v := by
  unfold redirect
  split
  · rename_i h
    exact h.symm
  · rfl

lemma redirect_redirect (old new v : ValueId) :
    redirect old new (redirect old new v) = redirect old new v := by
  by_cases hv : v = old
  · by_cases hn : new = old <;> simp [redirect, hv, hn]
  · simp [redirect, hv]

lemma redirect_ne_old (h : old ≠ new) (v : ValueId) : redirect old new v ≠ old := by
  unfold redirect
  split
  · exact h.symm
  · assumption

def redirectInsn (old new : ValueId) (i : Instruction) : Instruction :=
  { i with op := i.op.mapOperands (redirect old new) }

def redirectPhi (old new : ValueId) (p : Phi) : Phi :=
  { p with operands := p.operands.map (redirect old new) }

section Redirect

variable (old new : ValueId)

lemma redirectInsn_redirectInsn (i : Instruction) :
    redirectInsn old new (redirectInsn old new i) = redirectInsn old new i := by
  have hcomp : redirect old new ∘ redirect old new = redirect old new :=
    funext (redirect_redirect old new)
  simp only [redirectInsn, Op.mapOperands_mapOperands, hcomp]

lemma redirectPhi_redirectPhi (p : Phi) :
    redirectPhi old new (redirectPhi old new p) = redirectPhi old new p := by
  have hcomp : redirect old new ∘ redirect old new = redirect old new :=
    funext (redirect_redirect old new)
  simp only [redirectPhi, map_map, hcomp]

lemma redirectInsn_of_unread {old new : ValueId} {i : Instruction} (h : old ∉ i.op.operands) :
    redirectInsn old new i = i := by
  have hne : ∀ v ∈ i.op.operands, redirect old new v = v := by
    intro v hv
    refine redirect_of_ne ?_
    rintro rfl
    exact h hv
  rw [redirectInsn, Op.mapOperands_eq_self hne]

lemma redirectPhi_of_unread {old new : ValueId} {p : Phi} (h : old ∉ p.operands) :
    redirectPhi old new p = p := by
  have hmap : p.operands.map (redirect old new) = p.operands.map id := by
    refine map_congr_left fun v hv => redirect_of_ne ?_
    rintro rfl
    exact h hv
  rw [redirectPhi, hmap, map_id]

variable (f : Function) (user : Site)

lemma insn_redirectUse (i : InsnId) :
    (f.redirectUse old new user).insn i =
      if user = .insn i then redirectInsn old new (f.insn i) else f.insn i := by
  cases user with
  | phi p => simp [redirectUse]
  | insn j =>
    simp only [redirectUse, insn_modifyValue, insn_modifyInsn, Site.insn.injEq]
    by_cases hij : j = i
    · subst hij
      by_cases hlt : f.HasInsn j
      · simp only [hlt, and_self, if_true]
        rfl
      · simp only [hlt, and_false, if_false, if_true, f.insn_of_size_le (Nat.le_of_not_lt hlt)]
        rfl
    · simp [hij]

lemma phi_redirectUse (p : PhiId) :
    (f.redirectUse old new user).phi p =
      if user = .phi p then redirectPhi old new (f.phi p) else f.phi p := by
  cases user with
  | insn i => simp [redirectUse]
  | phi q =>
    simp only [redirectUse, phi_modifyValue, phi_modifyPhi, Site.phi.injEq]
    by_cases hqp : q = p
    · subst hqp
      by_cases hlt : f.HasPhi q
      · simp only [hlt, and_self, if_true]
        rfl
      · simp only [hlt, and_false, if_false, if_true, f.phi_of_size_le (Nat.le_of_not_lt hlt)]
        rfl
    · simp [hqp]

@[simp] lemma blocks_redirectUse : (f.redirectUse old new user).blocks = f.blocks := by
  cases user <;> rfl

@[simp] lemma size_values_redirectUse :
    (f.redirectUse old new user).values.size = f.values.size := by
  cases user <;> simp [redirectUse]

@[simp] lemma size_insns_redirectUse : (f.redirectUse old new user).insns.size = f.insns.size := by
  cases user <;> simp [redirectUse]

@[simp] lemma size_phis_redirectUse : (f.redirectUse old new user).phis.size = f.phis.size := by
  cases user <;> simp [redirectUse]

lemma value_redirectUse (v : ValueId) :
    (f.redirectUse old new user).value v =
      if new = v ∧ new.index < f.values.size then (f.value v).addUser user else f.value v := by
  cases user with
  | insn i | phi p => exact value_modifyValue _ new v _

def redirectUses (users : List Site) : Function :=
  users.foldl (fun f user => f.redirectUse old new user) f

variable (users : List Site)

lemma insn_redirectUses (i : InsnId) :
    (f.redirectUses old new users).insn i =
      if .insn i ∈ users then redirectInsn old new (f.insn i) else f.insn i := by
  induction users generalizing f with
  | nil => simp [redirectUses]
  | cons user rest ih =>
    refine (ih (f.redirectUse old new user)).trans ?_
    rw [insn_redirectUse]
    by_cases huser : user = .insn i
    · simp [huser, redirectInsn_redirectInsn]
    · simp [huser, Ne.symm huser]

lemma phi_redirectUses (p : PhiId) :
    (f.redirectUses old new users).phi p =
      if .phi p ∈ users then redirectPhi old new (f.phi p) else f.phi p := by
  induction users generalizing f with
  | nil => simp [redirectUses]
  | cons user rest ih =>
    refine (ih (f.redirectUse old new user)).trans ?_
    rw [phi_redirectUse]
    by_cases huser : user = .phi p
    · simp [huser, redirectPhi_redirectPhi]
    · simp [huser, Ne.symm huser]

@[simp] lemma blocks_redirectUses : (f.redirectUses old new users).blocks = f.blocks :=
  foldl_keeps (blocks_redirectUse old new) users f

@[simp] lemma size_values_redirectUses :
    (f.redirectUses old new users).values.size = f.values.size :=
  foldl_keeps (k := (·.values.size)) (size_values_redirectUse old new) users f

@[simp] lemma size_insns_redirectUses : (f.redirectUses old new users).insns.size = f.insns.size :=
  foldl_keeps (k := (·.insns.size)) (size_insns_redirectUse old new) users f

@[simp] lemma size_phis_redirectUses : (f.redirectUses old new users).phis.size = f.phis.size :=
  foldl_keeps (k := (·.phis.size)) (size_phis_redirectUse old new) users f

lemma definition_redirectUses (v : ValueId) :
    ((f.redirectUses old new users).value v).definition = (f.value v).definition := by
  refine foldl_keeps (k := fun f => (f.value v).definition) (fun f user => ?_) users f
  rw [value_redirectUse]
  split <;> simp

lemma mem_users_redirectUses (v : ValueId) (s : Site) :
    s ∈ ((f.redirectUses old new users).value v).users ↔
      s ∈ (f.value v).users ∨ (new = v ∧ f.HasValue v ∧ s ∈ users) := by
  induction users generalizing f with
  | nil => simp [redirectUses]
  | cons user rest ih =>
    refine (ih (f.redirectUse old new user)).trans ?_
    rw [value_redirectUse, HasValue, size_values_redirectUse, mem_cons]
    by_cases hv : new = v
    · subst hv
      by_cases hlt : f.HasValue new
      · simp only [hlt, and_self, if_true, Value.mem_users_addUser, true_and]
        tauto
      · simp [hlt]
    · simp [hv]

lemma nodup_users_redirectUses (h : (f.value v).users.Nodup) :
    ((f.redirectUses old new users).value v).users.Nodup := by
  induction users generalizing f with
  | nil => exact h
  | cons user rest ih =>
    refine ih (f.redirectUse old new user) ?_
    rw [value_redirectUse]
    split
    · exact Value.nodup_users_addUser _ _ h
    · exact h

lemma replaceAllUses_snd {old new : ValueId} (h : old ≠ new) :
    (f.replaceAllUses old new).2 =
      (f.modifyValue old fun value => { value with users := [] }).redirectUses old new
        (f.value old).users := by
  simp [replaceAllUses, h, redirectUses]

lemma replaceAllUses_self : (f.replaceAllUses old old).2 = f := by
  simp [replaceAllUses]

@[simp] lemma blocks_replaceAllUses : (f.replaceAllUses old new).2.blocks = f.blocks := by
  by_cases h : old = new
  · rw [h, replaceAllUses_self]
  · simp [replaceAllUses_snd, h]

@[simp] lemma block_replaceAllUses (b : BlockId) :
    (f.replaceAllUses old new).2.block b = f.block b := by
  simp [block]

@[simp] lemma size_values_replaceAllUses :
    (f.replaceAllUses old new).2.values.size = f.values.size := by
  by_cases h : old = new
  · rw [h, replaceAllUses_self]
  · simp [replaceAllUses_snd, h]

@[simp] lemma size_insns_replaceAllUses :
    (f.replaceAllUses old new).2.insns.size = f.insns.size := by
  by_cases h : old = new
  · rw [h, replaceAllUses_self]
  · simp [replaceAllUses_snd, h]

@[simp] lemma size_phis_replaceAllUses : (f.replaceAllUses old new).2.phis.size = f.phis.size := by
  by_cases h : old = new
  · rw [h, replaceAllUses_self]
  · simp [replaceAllUses_snd, h]

@[simp] lemma definition_replaceAllUses (v : ValueId) :
    ((f.replaceAllUses old new).2.value v).definition = (f.value v).definition := by
  by_cases h : old = new
  · rw [h, replaceAllUses_self]
  · rw [f.replaceAllUses_snd h, definition_redirectUses, value_modifyValue]
    split <;> rfl

lemma mem_users_replaceAllUses {old new : ValueId} (hne : old ≠ new)
    (hnew : f.HasValue new) (v : ValueId) (s : Site) :
    s ∈ ((f.replaceAllUses old new).2.value v).users ↔
      (v ≠ old ∧ s ∈ (f.value v).users) ∨ (new = v ∧ s ∈ (f.value old).users) := by
  rw [f.replaceAllUses_snd hne, mem_users_redirectUses, value_modifyValue]
  by_cases hv : v = old
  · subst hv
    by_cases hlt : f.HasValue v
    · simp [hlt, Ne.symm hne]
    · have hnone : s ∉ (f.value v).users := fun hs => hlt (f.lt_values_of_mem_users hs)
      simp [hlt, hnone]
  · by_cases hnv : new = v
    · subst hnv
      simp [hv, Ne.symm hv, hnew]
    · simp [hv, Ne.symm hv, hnv]

end Redirect

section

variable (f : Function) (h : ∀ s, s ∈ (f.value old).users ↔ f.Reads old s) (new : ValueId)
include h

lemma insn_replaceAllUses_of (i : InsnId) :
    (f.replaceAllUses old new).2.insn i = redirectInsn old new (f.insn i) := by
  by_cases hne : old = new
  · subst hne
    rw [replaceAllUses_self, redirectInsn, Op.mapOperands_eq_self fun v _ => redirect_self old v]
  · rw [f.replaceAllUses_snd hne, insn_redirectUses, insn_modifyValue]
    split
    · rfl
    · rename_i hnot
      rw [h] at hnot
      exact (redirectInsn_of_unread hnot).symm

lemma phi_replaceAllUses_of (p : PhiId) :
    (f.replaceAllUses old new).2.phi p = redirectPhi old new (f.phi p) := by
  by_cases hne : old = new
  · subst hne
    have hmap : (f.phi p).operands.map (redirect old old) = (f.phi p).operands :=
      map_id'' (redirect_self old) _
    rw [replaceAllUses_self, redirectPhi, hmap]
  · rw [f.replaceAllUses_snd hne, phi_redirectUses, phi_modifyValue]
    split
    · rfl
    · rename_i hnot
      rw [h] at hnot
      exact (redirectPhi_of_unread hnot).symm

end

namespace Exact

lemma insn_replaceAllUses (h : f.Exact) (old new : ValueId) (i : InsnId) :
    (f.replaceAllUses old new).2.insn i = redirectInsn old new (f.insn i) :=
  f.insn_replaceAllUses_of (h.users_iff old) new i

lemma phi_replaceAllUses (h : f.Exact) (old new : ValueId) (p : PhiId) :
    (f.replaceAllUses old new).2.phi p = redirectPhi old new (f.phi p) :=
  f.phi_replaceAllUses_of (h.users_iff old) new p

lemma reads_replaceAllUses (h : f.Exact) (old new v : ValueId) (s : Site) :
    (f.replaceAllUses old new).2.Reads v s ↔ ∃ w, f.Reads w s ∧ redirect old new w = v := by
  cases s with
  | insn i => simp [Reads, h.insn_replaceAllUses, redirectInsn]
  | phi p => simp [Reads, h.phi_replaceAllUses, redirectPhi]

theorem replaceAllUses (h : f.Exact) (old : ValueId)
    (hnew : f.HasValue new) : (f.replaceAllUses old new).2.Exact := by
  by_cases hne : old = new
  · rw [hne, replaceAllUses_self]
    exact h
  refine h.reread (fun i => ⟨_, h.insn_replaceAllUses old new i, fun hr => ?_⟩)
    (fun p => ⟨_, h.phi_replaceAllUses old new p, fun hr => ?_⟩) (by simp) (by simp) (by simp)
    (fun v s => ?_) fun v => ?_
  · rw [(h.insn_gone i hr).1]
    rfl
  · rw [h.phi_gone p hr]
    rfl
  · rw [f.mem_users_replaceAllUses hne hnew, h.reads_replaceAllUses, h.users_iff, h.users_iff]
    constructor
    · rintro (⟨hv, hr⟩ | ⟨hv, hr⟩)
      · exact ⟨v, hr, redirect_of_ne hv⟩
      · exact ⟨old, hr, by simp [hv]⟩
    · rintro ⟨w, hr, hw⟩
      by_cases hwo : w = old
      · subst hwo
        exact Or.inr ⟨by simpa using hw, hr⟩
      · rw [redirect_of_ne hwo] at hw
        exact Or.inl ⟨hw ▸ hwo, hw ▸ hr⟩
  · rw [f.replaceAllUses_snd hne]
    refine nodup_users_redirectUses _ _ _ _ ?_
    rw [value_modifyValue]
    split
    · simp
    · exact h.users_nodup v

end Exact

/-! ## Removing a phi -/

def withoutPhi (f : Function) (p : PhiId) : Function :=
  let phi := f.phi p
  let f := f.setPhiOperands p []
  let f := f.modifyBlock phi.block fun block =>
    { block with phis := block.phis.filter fun q => q ≠ p }
  let f := f.modifyValue phi.value fun value => { value with definition := none, users := [] }
  f.modifyPhi p (·.gone)

lemma removePhi_run (hp : f.LivePhi p) (hu : ∀ s ∈ (f.value (f.phi p).value).users, s = .phi p) :
    (removePhi p).run f = .ok () (f.withoutPhi p) := by
  have hforeign : (f.value (f.phi p).value).users.filter (fun user => user ≠ .phi p) = [] := by
    rw [filter_eq_nil_iff]
    intro s hs
    simpa using hu s hs
  simp only [removePhi, EStateM.run, bind, EStateM.bind, get, getThe, MonadStateOf.get, EStateM.get,
    hp, hforeign, length_nil, modify, modifyGet, MonadStateOf.modifyGet, pure]
  rfl

lemma removePhi_run_removed (hp : (f.phi p).removed = true) : (removePhi p).run f = .ok () f := by
  simp only [removePhi, EStateM.run, bind, EStateM.bind, get, getThe, MonadStateOf.get, EStateM.get,
    hp, if_true, pure, EStateM.pure]

section WithoutPhi

variable (f : Function) (p : PhiId)

@[simp] lemma insn_withoutPhi (i : InsnId) : (f.withoutPhi p).insn i = f.insn i := by
  simp [withoutPhi]

@[simp] lemma insns_withoutPhi : (f.withoutPhi p).insns = f.insns := by
  simp [withoutPhi]

@[simp] lemma size_values_withoutPhi : (f.withoutPhi p).values.size = f.values.size := by
  simp [withoutPhi]

@[simp] lemma size_phis_withoutPhi : (f.withoutPhi p).phis.size = f.phis.size := by
  simp [withoutPhi]

@[simp] lemma size_blocks_withoutPhi : (f.withoutPhi p).blocks.size = f.blocks.size := by
  simp [withoutPhi]

lemma phi_withoutPhi (q : PhiId) :
    (f.withoutPhi p).phi q = if q = p ∧ p.index < f.phis.size then (f.phi q).gone else f.phi q := by
  simp only [withoutPhi, phi_modifyPhi, phi_modifyValue, phi_modifyBlock, phi_setPhiOperands,
    phis_modifyValue, phis_modifyBlock, size_phis_setPhiOperands]
  by_cases hq : q = p
  · subst hq
    by_cases hlt : f.HasPhi q <;> simp [hlt, Phi.gone]
  · simp [hq, Ne.symm hq]

lemma value_withoutPhi (v : ValueId) :
    (f.withoutPhi p).value v =
      if (f.phi p).value = v ∧ v.index < f.values.size then
        { (f.setPhiOperands p []).value v with definition := none, users := [] }
      else (f.setPhiOperands p []).value v := by
  simp only [withoutPhi, value_modifyPhi, value_modifyValue, value_modifyBlock,
    values_modifyBlock, size_values_setPhiOperands]
  by_cases hv : (f.phi p).value = v
  · subst hv
    rfl
  · simp [hv]

end WithoutPhi

namespace Exact

lemma block_withoutPhi (h : f.Exact) (b : BlockId) :
    (f.withoutPhi p).block b =
      { f.block b with phis := (f.block b).phis.filter fun q => q ≠ p } := by
  simp only [withoutPhi, block_modifyPhi, block_modifyValue, block_modifyBlock,
    block_setPhiOperands, blocks_setPhiOperands]
  split
  · rfl
  · rename_i hnot
    have hp : p ∉ (f.block b).phis := by
      intro hp
      have hlive := (h.phis_iff b p).1 hp
      have hlt : f.HasBlock b := by
        by_contra hc
        rw [f.block_of_size_le (Nat.le_of_not_lt hc)] at hp
        simp [Block.gone] at hp
      exact hnot ⟨hlive.2, hlive.2 ▸ hlt⟩
    have hfilter : ((f.block b).phis.filter fun q => q ≠ p) = (f.block b).phis := by
      rw [filter_eq_self]
      intro q hq
      simpa using fun hc : q = p => hp (hc ▸ hq)
    rw [hfilter]

lemma definition_withoutPhi (h : f.Exact) (hp : f.LivePhi p) (v : ValueId) :
    ((f.withoutPhi p).value v).definition =
      if (f.phi p).value = v then none else (f.value v).definition := by
  rw [value_withoutPhi]
  by_cases hv : (f.phi p).value = v
  · have hlt : f.HasValue v :=
      f.lt_values_of_definition ((h.definition_iff v (.phi p)).2 ⟨hp, hv⟩)
    simp [hv, hlt]
  · simp [hv]

lemma ty_withoutPhi (v : ValueId) : ((f.withoutPhi p).value v).ty = (f.value v).ty := by
  rw [value_withoutPhi]
  split <;> simp

lemma mem_users_withoutPhi (h : f.Exact)
    (hu : ∀ s ∈ (f.value (f.phi p).value).users, s = .phi p) (v : ValueId) (s : Site) :
    s ∈ ((f.withoutPhi p).value v).users ↔ s ∈ (f.value v).users ∧ s ≠ .phi p := by
  have hset : s ∈ ((f.setPhiOperands p []).value v).users ↔ s ∈ (f.value v).users ∧ s ≠ .phi p := by
    rw [mem_users_setPhiOperands]
    simp only [not_mem_nil, false_and, and_false, or_false]
    refine and_congr_right fun hs => ?_
    rw [h.users_iff] at hs
    constructor
    · rintro hnot rfl
      exact hnot ⟨rfl, hs⟩
    · exact fun hne hc => hne hc.1
  rw [value_withoutPhi]
  split
  · rename_i hv
    simp only [not_mem_nil, false_iff, not_and, not_not]
    intro hs
    exact hu s (hv.1 ▸ hs)
  · exact hset

lemma withoutPhi (h : f.Exact) (hp : f.LivePhi p)
    (hu : ∀ s ∈ (f.value (f.phi p).value).users, s = .phi p) : (f.withoutPhi p).Exact := by
  refine Exact.shed (f := f) (d := (· = .phi p)) (by simp)
    (by simp [phi_withoutPhi, f.lt_phis_of_live hp]) h (by simp [h.block_withoutPhi])
    (by simpa [h.block_withoutPhi] using h.insns_nodup) (by simp [h.block_withoutPhi])
    (fun b => by simpa [h.block_withoutPhi] using (h.phis_nodup b).filter _) (fun v s => ?_)
    (h.mem_users_withoutPhi hu) fun v => ?_
  · rw [h.definition_withoutPhi hp]
    by_cases hv : (f.phi p).value = v
    · have hdef := (h.definition_iff v (.phi p)).2 ⟨hp, hv⟩
      simp [hv, hdef, eq_comm]
    · rw [if_neg hv, iff_self_and]
      rintro hs rfl
      exact hv ((h.definition_iff v _).1 hs).2
  · rw [value_withoutPhi]
    split
    · simp
    · exact f.nodup_users_setPhiOperands p [] (h.users_nodup v)

end Exact

/-! ## Collapsing a trivial phi -/

/-- The function in which `same` is read instead of the value of a phi and the phi is gone. -/
def collapsePhi (f : Function) (p : PhiId) (same : ValueId) : Function :=
  (f.replaceAllUses (f.phi p).value same).2.withoutPhi p

section

variable (f : Function) (p : PhiId) (same : ValueId)

@[simp] lemma size_values_collapsePhi : (f.collapsePhi p same).values.size = f.values.size := by
  simp [collapsePhi]

@[simp] lemma size_phis_collapsePhi : (f.collapsePhi p same).phis.size = f.phis.size := by
  simp [collapsePhi]

@[simp] lemma size_insns_collapsePhi : (f.collapsePhi p same).insns.size = f.insns.size := by
  simp [collapsePhi]

@[simp] lemma size_blocks_collapsePhi : (f.collapsePhi p same).blocks.size = f.blocks.size := by
  simp [collapsePhi]

end

namespace Exact

variable {same : ValueId}

section

variable (h : f.Exact)
include h

lemma phi_value_replaceAllUses (old new : ValueId) (q : PhiId) :
    ((f.replaceAllUses old new).2.phi q).value = (f.phi q).value := by
  rw [h.phi_replaceAllUses, redirectPhi]

lemma phi_removed_replaceAllUses (old new : ValueId) (q : PhiId) :
    ((f.replaceAllUses old new).2.phi q).removed = (f.phi q).removed := by
  rw [h.phi_replaceAllUses, redirectPhi]

lemma unread_replaceAllUses (hne : (f.phi p).value ≠ same) (hsame : f.HasValue same) :
    ∀ s ∈ ((f.replaceAllUses (f.phi p).value same).2.value
      ((f.replaceAllUses (f.phi p).value same).2.phi p).value).users, s = .phi p := by
  intro s hs
  rw [h.phi_value_replaceAllUses, mem_users_replaceAllUses _ hne hsame] at hs
  simp [hne.symm] at hs

section

variable (hp : f.LivePhi p)
include hp

lemma replaceTrivial_run (hne : (f.phi p).value ≠ same) (hsame : f.HasValue same) :
    (replaceTrivial p (f.phi p).value same).run f = .ok () (f.collapsePhi p same) := by
  have hlive : ((f.replaceAllUses (f.phi p).value same).2.phi p).removed = false := by
    rw [h.phi_removed_replaceAllUses, hp]
  exact removePhi_run hlive (h.unread_replaceAllUses hne hsame)

omit hp in
lemma insn_collapsePhi (i : InsnId) :
    (f.collapsePhi p same).insn i = redirectInsn (f.phi p).value same (f.insn i) := by
  rw [collapsePhi, insn_withoutPhi, h.insn_replaceAllUses]

lemma phi_collapsePhi (q : PhiId) :
    (f.collapsePhi p same).phi q =
      if q = p then (f.phi p).gone else redirectPhi (f.phi p).value same (f.phi q) := by
  have hlt : f.HasPhi p := f.lt_phis_of_live hp
  rw [collapsePhi, phi_withoutPhi, h.phi_replaceAllUses, size_phis_replaceAllUses]
  by_cases hq : q = p
  · subst hq
    simp [hlt, redirectPhi, Phi.gone]
  · simp [hq]

omit hp in
lemma block_collapsePhi (hsame : f.HasValue same) (b : BlockId) :
    (f.collapsePhi p same).block b =
      { f.block b with phis := (f.block b).phis.filter fun q => q ≠ p } := by
  rw [collapsePhi, (h.replaceAllUses _ hsame).block_withoutPhi, block_replaceAllUses]

lemma definition_collapsePhi (hsame : f.HasValue same) (v : ValueId) :
    ((f.collapsePhi p same).value v).definition =
      if (f.phi p).value = v then none else (f.value v).definition := by
  rw [collapsePhi, (h.replaceAllUses _ hsame).definition_withoutPhi
    (by rw [LivePhi, h.phi_removed_replaceAllUses, hp]), h.phi_value_replaceAllUses,
    definition_replaceAllUses]

lemma collapsePhi (hne : (f.phi p).value ≠ same)
    (hsame : f.HasValue same) : (f.collapsePhi p same).Exact :=
  (h.replaceAllUses _ hsame).withoutPhi (by rw [LivePhi, h.phi_removed_replaceAllUses, hp])
    (h.unread_replaceAllUses hne hsame)

end

end

end Exact

end Function

end Dissolve.Ssa
