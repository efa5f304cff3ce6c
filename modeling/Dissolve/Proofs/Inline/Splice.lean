import Dissolve.Proofs.Inline.Binding

/-!
# Proofs.Inline.Splice — a body of one block in front of the call

The instructions of the callee are copied one after another in front of the call (`Splicing` says what
the function looks like on the way). Nothing else of the caller changes until the result is bound and
the call is taken out, so a spliced function is the caller with a copy of the body in the place of the
call (`splice_inlined`).
-/

namespace Dissolve.Inline

open List Ssa.Edit
open Ssa (Edit Function Op Position)
open Ssa.Function
open Semantics

variable {u v w : ValueId} {i : InsnId}

lemma mapTargets_eq_self {op : Op} (h : op.targets = []) (k : BlockId → BlockId) :
    op.mapTargets k = op := by
  cases op <;> simp_all [Op.targets, Op.mapTargets]

section Step

variable {callee g g' : Function} {call : InsnId} {args : List ValueId} {s s' : Splice}

/-- The function with a new value for the value of a copied instruction. -/
def withCopyOf (callee g : Function) (dest : Option ValueId) : Function :=
  dest.elim g fun w => (g.addValue (callee.value w).ty).2

lemma copyDest_run (r : Renaming) (dest : Option ValueId) :
    (copyDest callee r dest).run g = .ok
      (dest.map fun _ => ⟨g.values.size⟩, dest.elim r fun w => r.addValue w ⟨g.values.size⟩)
      (withCopyOf callee g dest) := by
  cases dest <;> rfl

@[simp] lemma insns_withCopyOf (dest : Option ValueId) :
    (withCopyOf callee g dest).insns = g.insns := by
  cases dest <;> rfl

@[simp] lemma phis_withCopyOf (dest : Option ValueId) :
    (withCopyOf callee g dest).phis = g.phis := by
  cases dest <;> rfl

@[simp] lemma blocks_withCopyOf (dest : Option ValueId) :
    (withCopyOf callee g dest).blocks = g.blocks := by
  cases dest <;> rfl

lemma exact_withCopyOf (hg : g.Exact) (dest : Option ValueId) :
    (withCopyOf callee g dest).Exact := by
  cases dest with
  | none => exact hg
  | some w => exact hg.addValue _

lemma size_withCopyOf (dest : Option ValueId) :
    (withCopyOf callee g dest).values.size = g.values.size + dest.toList.length := by
  cases dest <;> simp [withCopyOf, Ssa.Function.addValue]

lemma spliceInsn_cases (hrun : (spliceInsn call callee args s i).run g = .ok s' g') :
    (∃ index w v, (callee.insn i).op = .argument index ∧ (callee.insn i).dest = some w ∧
      args[index]? = some v ∧ s' = { s with names := s.names.addValue w v } ∧ g' = g) ∨
    (∃ value, (callee.insn i).op = .ret value ∧
      s' = { s with returned := value.map s.names.value } ∧ g' = g) ∨
    ((∀ index, (callee.insn i).op ≠ .argument index) ∧ (∀ value, (callee.insn i).op ≠ .ret value) ∧
      ∃ n position,
        (withCopyOf callee g (callee.insn i).dest).positionInBlock? call = some n ∧
        s' = { s with
          names := (callee.insn i).dest.elim s.names fun w => s.names.addValue w ⟨g.values.size⟩
          copied := s.copied + 1 } ∧
        g' = ((withCopyOf callee g (callee.insn i).dest).insertInsn
          ((withCopyOf callee g (callee.insn i).dest).insn call).block n
          (s.names.op (callee.insn i).op) ((callee.insn i).dest.map fun _ => ⟨g.values.size⟩)
          position).2) := by
  unfold spliceInsn at hrun
  dsimp only at hrun
  split at hrun
  · rename_i index hop
    cases hdest : (callee.insn i).dest with
    | none =>
      simp only [hdest] at hrun
      cases hrun
    | some w =>
      simp only [hdest] at hrun
      obtain ⟨v, g1, harg, hrun⟩ := ok_of_bind hrun
      unfold argumentOf at harg
      cases hv : args[index]? with
      | none =>
        simp only [hv] at harg
        cases harg
      | some v' =>
        simp only [hv] at harg
        cases harg
        cases hrun
        exact .inl ⟨index, w, v, hop, rfl, hv, rfl, rfl⟩
  · rename_i value hop
    cases hrun
    exact .inr (.inl ⟨value, hop, rfl, rfl⟩)
  · rename_i hparam hret
    refine .inr (.inr ⟨fun index h => hparam index h, fun value h => hret value h, ?_⟩)
    obtain ⟨⟨dest, names⟩, g1, hcopy, hrun⟩ := ok_of_bind hrun
    rw [copyDest_run] at hcopy
    cases hcopy
    obtain ⟨j, g2, hinsert, hrun⟩ := ok_of_bind hrun
    cases hrun
    obtain ⟨k, g3, hinsert, ⟨⟩⟩ := ok_of_bind hinsert
    obtain ⟨f', f'', ⟨⟩, hinsert⟩ := ok_of_bind hinsert
    split at hinsert
    · cases hinsert
    · rename_i n hn
      cases hinsert
      exact ⟨n, _, hn, rfl, rfl⟩

end Step

/-- Instructions of the callee have been copied in front of the call. -/
structure Splicing (f callee : Function) (call : InsnId) (args : List ValueId)
    (before after done copies : List InsnId) (s : Splice) (g : Function) : Prop where
  exact : g.Exact
  blocks : g.blocks.size = f.blocks.size
  block : ∀ b, g.block b = if (f.insn call).block = b then
    { f.block b with insns := before ++ copies ++ call :: after } else f.block b
  size : f.insns.size ≤ g.insns.size
  insn : ∀ i : InsnId, i.index < f.insns.size → g.insn i = f.insn i
  phi : ∀ q, g.phi q = f.phi q
  values : f.values.size ≤ g.values.size
  copies_new : ∀ j ∈ copies, f.insns.size ≤ j.index
  bindings : Bindings callee args f.values.size g.values.size s.names.values
  bound : ∀ i ∈ done, (∀ v, (callee.insn i).op ≠ .ret v) → ∀ w, (callee.insn i).dest = some w →
    ∃ v, s.names.values.get? w = some v
  keys : ∀ w v, s.names.values.get? w = some v → ∃ i ∈ done, (callee.insn i).dest = some w

namespace Splicing

variable {f callee g g' : Function} {call : InsnId} {args : List ValueId}
  {before after done copies todo : List InsnId} {s s' : Splice}

lemma start (hf : f.Exact) (hhome : (f.block (f.insn call).block).insns = before ++ call :: after) :
    Splicing f callee call args before after [] [] {} f where
  exact := hf
  blocks := rfl
  block b := by
    split
    · rename_i hb
      subst hb
      rw [append_nil, ← hhome]
    · rfl
  size := le_rfl
  insn _ _ := rfl
  phi _ := rfl
  values := le_rfl
  copies_new := nofun
  bindings := .empty
  bound := nofun
  keys w v hv := (Option.some_ne_none v hv.symm).elim

section

variable (h : Splicing f callee call args before after done copies s g)
include h

lemma get?_insert
    (hc : callee.Exact) (hi : i ∉ done) {x : ValueId} (hw : (callee.insn i).dest = some w)
    (hu : s.names.values.get? u = some x) : (s.names.values.insert w v).get? u = some x := by
  rw [Assoc.get?_insert, if_neg, hu]
  rintro rfl
  obtain ⟨j, hj, hjw⟩ := h.keys w x hu
  exact hi (hc.insn_unique hjw hw ▸ hj)

lemma keys_insert (hw : (callee.insn i).dest = some w) (u x : ValueId)
    (hu : (s.names.values.insert w v).get? u = some x) :
    ∃ j ∈ done ++ [i], (callee.insn j).dest = some u := by
  rcases Assoc.of_get?_insert hu with ⟨rfl, -⟩ | hu
  · exact ⟨i, by simp, hw⟩
  · obtain ⟨j, hj, hju⟩ := h.keys u x hu
    exact ⟨j, by simp [hj], hju⟩

lemma bound_insert (hc : callee.Exact) (hi : i ∉ done) (hw : (callee.insn i).dest = some w) :
    ∀ j ∈ done ++ [i], (∀ v, (callee.insn j).op ≠ .ret v) → ∀ u, (callee.insn j).dest = some u →
      ∃ x, (s.names.values.insert w v).get? u = some x := by
  intro j hj hret u hu
  rcases mem_append.1 hj with hj | hj
  · obtain ⟨x, hx⟩ := h.bound j hj hret u hu
    exact ⟨x, h.get?_insert hc hi hw hx⟩
  · obtain rfl := mem_singleton.1 hj
    obtain rfl := Option.some.inj (hw.symm.trans hu)
    exact ⟨v, Assoc.get?_insert_self ..⟩

lemma argument (hc : callee.Exact) (hargs : ∀ v ∈ args, f.HasValue v) (hi : i ∉ done) {index : Nat}
    (hop : (callee.insn i).op = .argument index) (hw : (callee.insn i).dest = some w)
    (hv : args[index]? = some v) :
    Splicing f callee call args before after (done ++ [i]) copies
      { s with names := s.names.addValue w v } g :=
  { h with
    bindings := h.bindings.insert_argument hargs hop hw hv
    bound := h.bound_insert hc hi hw
    keys := h.keys_insert hw }

lemma ret {value : Option ValueId} (hop : (callee.insn i).op = .ret value) :
    Splicing f callee call args before after (done ++ [i]) copies
      { s with returned := value.map s.names.value } g :=
  { h with
    bound := by
      intro j hj hret
      rcases mem_append.1 hj with hj | hj
      · exact h.bound j hj hret
      · obtain rfl := mem_singleton.1 hj
        exact absurd hop (hret value)
    keys := fun w v hv => by
      obtain ⟨j, hj, hw⟩ := h.keys w v hv
      exact ⟨j, by simp [hj], hw⟩ }

lemma copy (hc : callee.Exact)
    (hargs : ∀ v ∈ args, v.index < f.values.size) (hlive : f.LiveInsn call)
    (hi : i ∉ done) (hparam : ∀ index, (callee.insn i).op ≠ .argument index)
    (hbound : ∀ u ∈ (callee.insn i).op.operands, ∃ x, s.names.values.get? u = some x) {n : Nat}
    {position : Position}
    (hn : (withCopyOf callee g (callee.insn i).dest).positionInBlock? call = some n)
    (hs : s' = { s with
      names := (callee.insn i).dest.elim s.names fun w => s.names.addValue w ⟨g.values.size⟩
      copied := s.copied + 1 }) (hg' : g' = ((withCopyOf callee g (callee.insn i).dest).insertInsn
      ((withCopyOf callee g (callee.insn i).dest).insn call).block n (s.names.op (callee.insn i).op)
      ((callee.insn i).dest.map fun _ => ⟨g.values.size⟩) position).2) :
    Splicing f callee call args before after (done ++ [i]) (copies ++ [⟨g.insns.size⟩]) s' g' ∧
      (g'.insn ⟨g.insns.size⟩).op = s.names.op (callee.insn i).op ∧
      (g'.insn ⟨g.insns.size⟩).dest = (callee.insn i).dest.map (fun _ => ⟨g.values.size⟩) ∧
      (∀ j : InsnId, j.index < g.insns.size → g'.insn j = g.insn j) ∧
      g'.insns.size = g.insns.size + 1 := by
  have hcall : g.insn call = f.insn call := h.insn call (f.lt_insns_of_live hlive)
  have hinsn1 : ∀ j, (withCopyOf callee g (callee.insn i).dest).insn j = g.insn j := fun j => by
    rw [Ssa.Function.insn, insns_withCopyOf, Ssa.Function.insn]
  have hblock1 : ∀ b, (withCopyOf callee g (callee.insn i).dest).block b = g.block b := fun b => by
    rw [Ssa.Function.block, blocks_withCopyOf, Ssa.Function.block]
  have hphi1 : ∀ q, (withCopyOf callee g (callee.insn i).dest).phi q = g.phi q := fun q => by
    rw [Ssa.Function.phi, phis_withCopyOf, Ssa.Function.phi]
  have hexact1 : (withCopyOf callee g (callee.insn i).dest).Exact := exact_withCopyOf h.exact _
  have hsize1 : (withCopyOf callee g (callee.insn i).dest).values.size =
      g.values.size + (callee.insn i).dest.toList.length := size_withCopyOf _
  have hhome : (g.block (f.insn call).block).insns = (before ++ copies) ++ call :: after := by
    rw [h.block, if_pos rfl]
  have hlt : (f.insn call).block.index < g.blocks.size := by
    by_contra hle
    rw [g.block_of_size_le (by omega)] at hhome
    simp [Ssa.Block.gone] at hhome
  -- the place of the call
  have hplace := hexact1.positionInBlock?_eq (b := (f.insn call).block) (by rw [hblock1, hhome])
  obtain rfl : n = (before ++ copies).length := Option.some.inj (hn.symm.trans hplace)
  rw [hinsn1, hcall] at hg'
  have hinsn : ∀ j, g'.insn j = if j.index = g.insns.size then
      ⟨s.names.op (callee.insn i).op, (callee.insn i).dest.map fun _ => ⟨g.values.size⟩,
        (f.insn call).block, position, false⟩ else g.insn j := by
    intro j
    rw [hg', insertInsn_snd, insn_modifyBlock, insn_createInsn, insns_withCopyOf, hinsn1]
  have hnew := hinsn ⟨g.insns.size⟩
  rw [if_pos rfl] at hnew
  have hsize : g'.insns.size = g.insns.size + 1 := by
    simp [hg', Ssa.Function.insertInsn, Ssa.Function.createInsn]
  have hvalues : g'.values.size = (withCopyOf callee g (callee.insn i).dest).values.size := by
    rw [hg', insertInsn_snd, values_modifyBlock, size_values_createInsn]
  have hold : ∀ j : InsnId, j.index < g.insns.size → g'.insn j = g.insn j := fun j hj => by
    rw [hinsn, if_neg (by omega)]
  have hw : ∀ w, (callee.insn i).dest = some w →
      ∀ k index, (callee.insn k).op = .argument index → (callee.insn k).dest ≠ some w := by
    intro w hw k index hop hk
    obtain rfl : k = i := hc.insn_unique hk hw
    exact hparam index hop
  refine ⟨⟨?_, ?_, ?_, ?_, ?_, ?_, ?_, ?_, ?_, ?_, ?_⟩, by rw [hnew], by rw [hnew], hold, hsize⟩
  · rw [hg']
    refine hexact1.insertInsn _ _ (by rwa [HasBlock, blocks_withCopyOf]) ?_ ?_
    · intro v hv
      rw [Renaming.op, Op.operands_mapTargets, Op.operands_mapOperands] at hv
      obtain ⟨u, hu, rfl⟩ := mem_map.1 hv
      obtain ⟨x, hx⟩ := hbound u hu
      rw [Renaming.value, hx, Option.getD_some]
      exact (h.bindings.lt hargs h.values hx).trans_le (by omega)
    · intro d hd
      cases hdest : (callee.insn i).dest with
      | none => simp [hdest] at hd
      | some w =>
        rw [hdest, Option.map_some, Option.some.injEq] at hd
        subst hd
        rw [hdest] at hsize1
        refine ⟨by simp [hsize1], ?_⟩
        rw [withCopyOf, Option.elim_some, value_addValue, if_pos rfl]
  · rw [hg', insertInsn_snd, size_blocks_modifyBlock, blocks_createInsn, blocks_withCopyOf, h.blocks]
  · intro b
    rw [hg', insertInsn_snd, block_modifyBlock, block_createInsn, blocks_createInsn,
      blocks_withCopyOf, insns_withCopyOf, hblock1]
    by_cases hb : (f.insn call).block = b
    · subst hb
      rw [if_pos ⟨rfl, hlt⟩, if_pos rfl, h.block, if_pos rfl]
      simp only [take_left, drop_left]
      simp
    · rw [if_neg fun hand => hb hand.1, if_neg hb, h.block, if_neg hb]
  · rw [hsize]
    exact h.size.trans (Nat.le_succ _)
  · intro j hj
    rw [hold j (hj.trans_le h.size), h.insn j hj]
  · intro q
    rw [hg', insertInsn_snd, phi_modifyBlock, phi_createInsn, hphi1, h.phi]
  · rw [hvalues, hsize1]
    exact h.values.trans (Nat.le_add_right _ _)
  · intro j hj
    rcases mem_append.1 hj with hj | hj
    · exact h.copies_new j hj
    · obtain rfl := mem_singleton.1 hj
      exact h.size
  · rw [hvalues, hsize1, hs]
    cases hdest : (callee.insn i).dest with
    | none => exact h.bindings
    | some w => exact h.bindings.insert_new hargs h.values (hw w hdest)
  · rw [hs]
    cases hdest : (callee.insn i).dest with
    | none =>
      intro j hj hret w hjw
      rcases mem_append.1 hj with hj | hj
      · exact h.bound j hj hret w hjw
      · obtain rfl := mem_singleton.1 hj
        exact absurd (hdest.symm.trans hjw) (Option.some_ne_none w).symm
    | some w => exact h.bound_insert hc hi hdest
  · rw [hs]
    cases hdest : (callee.insn i).dest with
    | none =>
      intro w v hv
      obtain ⟨j, hj, hw⟩ := h.keys w v hv
      exact ⟨j, by simp [hj], hw⟩
    | some w => exact h.keys_insert hdest

lemma operands_bound (hc : callee.WellFormed) (hentry : (callee.block callee.entry).phis = [])
    (hlist : (callee.block callee.entry).insns = done ++ i :: todo)
    (hu : u ∈ (callee.insn i).op.operands) : ∃ x, s.names.values.get? u = some x := by
  rcases hc.flow.insn_avail _ done i todo hlist u hu with ⟨j, hj, hju⟩ | hstart
  · refine h.bound j hj (fun v hv => ?_) u hju
    obtain ⟨front, back, rfl⟩ := append_of_mem hj
    have hsplit : (callee.block callee.entry).insns = front ++ j :: (back ++ i :: todo) := by
      simp [hlist]
    have hrest := hc.rest_of_terminator hsplit (by rw [hv]; rfl)
    simp at hrest
  · exact absurd hstart (hc.exact.not_availStart_entry hentry)

end

lemma loop (hc : callee.WellFormed) (hentry : (callee.block callee.entry).phis = [])
    (hargs : ∀ v ∈ args, f.HasValue v) (hlive : f.LiveInsn call)
    (hstraight : ∀ i ∈ (callee.block callee.entry).insns, (callee.insn i).op.targets = [])
    (h : Splicing f callee call args before after done copies s g)
    (hlist : (callee.block callee.entry).insns = done ++ todo)
    (hrun : (todo.foldlM (spliceInsn call callee args) s).run g = .ok s' g') :
    ∃ more, Splicing f callee call args before after (done ++ todo) (copies ++ more) s' g' ∧
      (∀ w v, s.names.values.get? w = some v → s'.names.values.get? w = some v) ∧
      (∀ j, g.HasInsn j → g'.insn j = g.insn j) ∧
      Transcribed callee g' s'.names.value (fun _ => (f.insn call).block)
        (fun returned js => js = [] ∧ s'.returned = returned.map s'.names.value) todo more := by
  induction todo generalizing done copies s g with
  | nil =>
    cases hrun
    exact ⟨[], by simpa using h, fun _ _ hv => hv, fun _ _ => rfl, .nil⟩
  | cons i todo ih =>
    obtain ⟨s1, g1, hstep, htail⟩ := ok_of_bind hrun
    have hi : i ∉ done := (hc.exact.not_mem_of_split hlist).1
    have hnext : (callee.block callee.entry).insns = (done ++ [i]) ++ todo := by simp [hlist]
    have hdone : done ++ i :: todo = done ++ [i] ++ todo := by simp
    rw [hdone]
    rcases spliceInsn_cases hstep with ⟨index, w, v, hop, hw, hv, rfl, rfl⟩ |
      ⟨value, hop, rfl, rfl⟩ | ⟨hparam, hret, n, position, hn, hs, hg⟩
    · obtain ⟨more, hmore, hext, hold, hcopy⟩ :=
        ih (h.argument hc.exact hargs hi hop hw hv) hnext htail
      exact ⟨more, hmore, fun u x hx => hext u x (h.get?_insert hc.exact hi hw hx), hold,
        .param hop hcopy⟩
    · -- a return is the last instruction
      obtain rfl := hc.rest_of_terminator hlist (by rw [hop]; rfl)
      cases htail
      exact ⟨[], by simpa using h.ret hop, fun _ _ hx => hx, fun _ _ => rfl, .leave hop ⟨rfl, rfl⟩⟩
    · have hoperands := fun u hu => h.operands_bound hc hentry hlist (u := u) hu
      obtain ⟨hcopied, hop', hdest', hold', hsize⟩ :=
        h.copy hc.exact hargs hlive hi hparam hoperands hn hs hg
      obtain ⟨more, hmore, hext, hold, hcopy⟩ := ih hcopied hnext htail
      have hgrow : ∀ u x, s.names.values.get? u = some x → s1.names.values.get? u = some x := by
        intro u x hx
        rw [hs]
        cases hdest : (callee.insn i).dest with
        | none => exact hx
        | some w => exact h.get?_insert hc.exact hi hdest hx
      refine ⟨⟨g.insns.size⟩ :: more, by simpa using hmore, fun u x hx => hext u x (hgrow u x hx),
        fun j hj => (hold j (by omega)).trans (hold' j hj), .copy ?_ ?_ hparam hret hcopy⟩
      · rw [hold _ (by simp [hsize]), hop', Renaming.op]
        have htargets : ((callee.insn i).op.mapOperands s.names.value).targets = [] := by
          rw [Op.targets_mapOperands]
          exact hstraight i (by simp [hlist])
        have hsame : (callee.insn i).op.mapOperands s.names.value =
            (callee.insn i).op.mapOperands s'.names.value := by
          refine Op.mapOperands_congr fun u hu => ?_
          obtain ⟨x, hx⟩ := hoperands u hu
          rw [Renaming.value, Renaming.value, hx, hext u x (hgrow u x hx)]
        rw [mapTargets_eq_self htargets, hsame, mapTargets_eq_self]
        rw [Op.targets_mapOperands]
        exact hstraight i (by simp [hlist])
      · rw [hold _ (by simp [hsize]), hdest']
        cases hdest : (callee.insn i).dest with
        | none => rfl
        | some w =>
          have hget : s1.names.values.get? w = some ⟨g.values.size⟩ := by
            rw [hs, hdest]
            exact Assoc.get?_insert_self ..
          rw [Option.map_some, Option.map_some, Renaming.value, hext w _ hget, Option.getD_some]

end Splicing

/-! ## The spliced function -/

section Inlined

variable {f callee g h : Function} {call : InsnId} {args : List ValueId}
  {before after copies : List InsnId} {s : Splice}

structure Straight (callee : Function) : Prop where
  only : ∀ b, (callee.block b).removed = false → b = callee.entry
  ends : ∃ front last value, (callee.block callee.entry).insns = front ++ [last] ∧
    (callee.insn last).op = .ret value ∧ ∀ i ∈ front, (callee.insn i).op.isTerminator = false

lemma straight_of_isStraight (hc : callee.WellFormed) (h : isStraight callee) :
    Straight callee := by
  rw [isStraight, Bool.and_eq_true, decide_eq_true_eq] at h
  obtain ⟨hcount, hterm⟩ := h
  obtain ⟨front, last, hinsns, hlast, hfront⟩ := hc.terminated _ hc.entry_live
  refine ⟨fun b hb => ?_, front, last, ?_⟩
  · obtain ⟨c, hids⟩ := length_eq_one_iff.1 hcount
    have hmem := (callee.mem_blockIds b).2 hb
    have hentry := (callee.mem_blockIds _).2 hc.entry_live
    rw [hids, mem_singleton] at hmem hentry
    rw [hmem, hentry]
  · have hterminator : callee.terminator? callee.entry = some last := by
      simp [terminator?, hinsns, hlast]
    rw [hterminator, Option.map_some] at hterm
    cases hop : (callee.insn last).op with
    | ret value => exact ⟨value, hinsns, rfl, hfront⟩
    | _ => simp [hop] at hterm

namespace Straight

section

variable (hs : Straight callee)
include hs

lemma targets (hi : i ∈ (callee.block callee.entry).insns) : (callee.insn i).op.targets = [] := by
  obtain ⟨front, last, value, hinsns, hlast, hfront⟩ := hs.ends
  rw [hinsns] at hi
  rcases mem_append.1 hi with hi | hi
  · have := hfront i hi
    cases hop : (callee.insn i).op <;> simp_all [Op.targets, Op.isTerminator]
  · rw [mem_singleton.1 hi, hlast]
    rfl

lemma successors (hplain : ∀ b, (callee.block b).handlers = [])
    {b : BlockId} (hb : callee.LiveBlock b) : callee.successors b = [] := by
  obtain ⟨front, last, value, hinsns, hlast, -⟩ := hs.ends
  obtain rfl := hs.only b hb
  rw [Ssa.Function.successors, normalSuccessors_of_last hinsns (by rw [hlast]; rfl), hplain, hlast]
  rfl

lemma predecessors (hc : callee.WellFormed)
    (hplain : ∀ b, (callee.block b).handlers = []) (b : BlockId) : callee.predecessors b = [] := by
  refine eq_nil_iff_forall_not_mem.2 fun p hp => ?_
  have hsucc := hc.mem_successors_iff.2 hp
  by_cases hlive : callee.LiveBlock p
  · rw [hs.successors hplain hlive] at hsucc
    cases hsucc
  · rw [successors_of_gone (hc.gone p (by simpa using hlive))] at hsucc
    cases hsucc

lemma mem_entry (hc : callee.WellFormed)
    (hw : (callee.insn i).dest = some w) : i ∈ (callee.block callee.entry).insns := by
  have hmem := (hc.exact.insns_iff _ i).2 ⟨hc.exact.live_of_dest hw, rfl⟩
  rwa [hs.only _ (hc.orderly.live_block_of_mem hmem)] at hmem

lemma insn_of_carried (hc : callee.WellFormed)
    (hentry : (callee.block callee.entry).phis = []) {site : Site}
    (hsite : callee.Defines w site) : ∃ i, site = .insn i ∧ (callee.insn i).dest = some w := by
  cases site with
  | insn i => exact ⟨i, rfl, hsite⟩
  | phi q =>
    have hmem := (hc.exact.phis_iff _ q).2 ⟨hsite.1, rfl⟩
    rw [hs.only _ (hc.orderly.live_block_of_phi hsite.1), hentry] at hmem
    cases hmem

end

end Straight

def spliceSeam (f : Function) (call : InsnId) (before after copies : List InsnId) (s : Splice) :
    Seam where
  before := before
  after := after
  body := copies ++ after
  value := s.names.value
  block := fun _ => (f.insn call).block
  tail := (f.insn call).block
  result := s.returned

lemma behind_spliceSeam (b : BlockId) :
    (spliceSeam f call before after copies s).behind (f.insn call).block b = b := by
  rw [Seam.behind]
  split
  · rename_i hb
    exact hb.symm
  · rfl

section

variable (hsplice : Splicing f callee call args before after (callee.block callee.entry).insns copies s g)
include hsplice

section

variable (hs : Straight callee) (hc : callee.WellFormed)
  (hentry : (callee.block callee.entry).phis = [])
include hs hc hentry

lemma Splicing.value_eq (hw : Carried callee w) :
    s.names.values.get? w = some (s.names.value w) := by
  obtain ⟨site, hsite, hret⟩ := hw
  obtain ⟨i, rfl, hi⟩ := hs.insn_of_carried hc hentry hsite
  obtain ⟨v, hv⟩ := hsplice.bound i (hs.mem_entry hc hi) (fun v => hret i v rfl) w hi
  rw [Renaming.value, hv, Option.getD_some]

lemma Splicing.fresh (hw : Named callee w) : f.values.size ≤ (s.names.value w).index :=
  hsplice.bindings.fresh hc.exact hw (hsplice.value_eq hs hc hentry hw.carried)

end

end

section Run

variable (hf : f.WellFormed) (hc : callee.WellFormed) (hs : Straight callee)
  (hentry : (callee.block callee.entry).phis = []) (hlive : f.LiveInsn call) {done : InlinedCall}
  (hrun : (splice call callee (f.insn call).op.operands).run f = .ok done h)
include hf hc hs hentry hlive hrun

/-- What splicing a body builds, up to the binding of the result and the removal of the call. -/
lemma splice_ok : ∃ before after copies s g g',
    (f.block (f.insn call).block).insns = before ++ call :: after ∧
      Splicing f callee call (f.insn call).op.operands before after
        (callee.block callee.entry).insns copies s g ∧
      Transcribed callee g s.names.value (fun _ => (f.insn call).block)
        (fun returned js => js = [] ∧ s.returned = returned.map s.names.value)
        (callee.block callee.entry).insns copies ∧
      (bindResult call s.returned).run g = .ok () g' ∧ (Ssa.removeInsn call).run g' = .ok () h := by
  have hexact := hf.exact
  obtain ⟨before, after, hhome⟩ := hexact.exists_split hlive
  have hargs : ∀ v ∈ (f.insn call).op.operands, f.HasValue v := fun v hv =>
    hexact.lt_of_reads (show f.Reads v (.insn call) from hv)
  obtain ⟨s, g, hloop, hrun⟩ := ok_of_bind hrun
  obtain ⟨⟨⟩, g2, hbind, hrun⟩ := ok_of_bind hrun
  obtain ⟨⟨⟩, g3, hremove, hrun⟩ := ok_of_bind hrun
  cases hrun
  obtain ⟨copies, hsplice, -, -, hcopy⟩ := Splicing.loop hc hentry hargs hlive
    (fun i hi => hs.targets hi) (.start hexact hhome) (nil_append _).symm hloop
  exact ⟨before, after, copies, s, g, g2, hhome, hsplice, hcopy, hbind, hremove⟩

/-- Splicing puts a copy of the body in the place of the call. -/
theorem splice_inlined (hu : Unguarded f callee call) :
    ∃ seam, Semantics.Inlined f callee call h seam ∧ ∀ b, call ∉ (h.block b).insns := by
  obtain ⟨hop, huncovered, hplain⟩ := hu
  have hexact := hf.exact
  obtain ⟨before, after, copies, s, g, g', hhome, hsplice, hcopy, hbind, hremove⟩ :=
    splice_ok hf hc hs hentry hlive hrun
  have hcall : g.insn call = f.insn call := hsplice.insn call (f.lt_insns_of_live hlive)
  obtain ⟨hbound, hunread⟩ := rebound_of_run (by rw [LiveInsn, hcall, hlive])
    ((hsplice.exact.insns_iff _ call).2 ⟨by rw [hcall, hlive], rfl⟩)
    (fun b hb => ((hsplice.exact.insns_iff b call).1 hb).2)
    (fun d _ => hsplice.exact.users_iff d) hbind hremove
  -- what is left
  obtain ⟨hnot_before, hnot_after⟩ := hexact.not_mem_of_split hhome
  have hnot_copies : call ∉ copies := fun hmem =>
    absurd (hsplice.copies_new call hmem) (Nat.not_le.2 (f.lt_insns_of_live hlive))
  have hfilter : ∀ l : List InsnId, call ∉ l → l.filter (fun j => j ≠ call) = l := fun l hl =>
    filter_eq_self.2 fun j hj => decide_eq_true fun heq => hl (heq ▸ hj)
  have hhead : (h.block (f.insn call).block).insns = before ++ (copies ++ after) := by
    rw [hbound.block, hsplice.block, if_pos rfl]
    simp only [filter_append, filter_cons_of_neg (p := fun j => decide (j ≠ call))
      (a := call) (by simp), hfilter _ hnot_before, hfilter _ hnot_copies, hfilter _ hnot_after,
      append_assoc]
  have hother : ∀ b, b ≠ (f.insn call).block → h.block b = f.block b := by
    intro b hb
    rw [hbound.block, hsplice.block, if_neg hb.symm, hfilter]
    exact fun hmem => hb ((hexact.insns_iff b call).1 hmem).2.symm
  have hshape : ∀ b, (h.block b).phis = (f.block b).phis ∧ (h.block b).preds = (f.block b).preds ∧
      (h.block b).handlers = (f.block b).handlers := by
    intro b
    rw [hbound.block, hsplice.block]
    split <;> exact ⟨rfl, rfl, rfl⟩
  have hinsn : ∀ i, f.LiveInsn i → i ≠ call → h.insn i = { f.insn i with
      op := (f.insn i).op.mapOperands (rebind (f.insn call).dest s.returned) } := by
    intro i hi hne
    rw [hbound.insn i hne, hsplice.insn i (f.lt_insns_of_live hi), hcall]
  have hphi : ∀ q, h.phi q = { f.phi q with
      operands := (f.phi q).operands.map (rebind (f.insn call).dest s.returned) } := by
    intro q
    rw [hbound.phi q, hsplice.phi q, hcall]
  have hsuccessors : ∀ b, f.LiveBlock b →
      h.successors ((spliceSeam f call before after copies s).behind (f.insn call).block b) =
        f.successors b := by
    intro b hb
    have hkept : ∀ {front last}, (f.block b).insns = front ++ [last] →
        (f.insn last).op.isTerminator → (h.insn last).op =
          (f.insn last).op.mapOperands (rebind (f.insn call).dest s.returned) := by
      intro front last hinsns hlast
      rw [hinsn _ (hexact.of_split hinsns).1 fun heq =>
        Bool.noConfusion (hop.symm.trans (heq ▸ hlast))]
    rw [behind_spliceSeam]
    by_cases hb' : b = (f.insn call).block
    · subst hb'
      obtain ⟨front, last, rfl, hlast, -⟩ := hf.ends_behind hhome hop
      have hinsns : (f.block (f.insn call).block).insns = (before ++ call :: front) ++ [last] := by
        simp [hhome]
      exact successors_of_last hinsns (hhead.trans (by rw [← append_assoc, ← append_assoc]))
        hlast (hkept hinsns hlast) (hshape _).2.2
    · obtain ⟨front, last, hinsns, hlast, -⟩ := hf.terminated b hb
      exact successors_of_last hinsns (by rw [hother b hb', hinsns]) hlast (hkept hinsns hlast)
        (hshape b).2.2
  -- what the body returns
  obtain ⟨front, last, value, hlist, hlast, hfront⟩ := hs.ends
  have hreturned : s.returned = value.map s.names.value := by
    rw [hlist] at hcopy
    obtain ⟨-, -, -, ⟨-, hreturned⟩, -⟩ := hcopy.exits hlast hfront
    exact hreturned
  have havailable : ∀ u, value = some u → Carried callee u := by
    rintro u rfl
    exact carried_of_availBefore hc .start hplain hlist
      (hc.flow.insn_avail _ front last [] hlist u (by simp [hlast, Op.operands]))
  have hresult : ∀ r, s.returned = some r → f.values.size ≤ r.index ∨
      r ∈ (f.insn call).op.operands ∧ (f.insn call).dest ≠ some r := by
    intro r hr
    rw [hreturned] at hr
    obtain ⟨u, hu, rfl⟩ := Option.map_eq_some_iff.1 hr
    rcases hsplice.bindings.cases u _ (hsplice.value_eq hs hc hentry (havailable u hu)) with
      ⟨-, index, -, -, hget⟩ | ⟨-, hle, -⟩
    · have hmem := mem_of_getElem? hget
      refine .inr ⟨hmem, fun hd => ?_⟩
      refine hbound.ne _ (by rw [hcall, hd]) (by rw [hreturned, hu, Option.map_some]) ?_
      rwa [hcall]
    · exact .inl hle
  have hcopied : (∃ t, f.Trail ((f.insn call).block :: t)) →
      (spliceSeam f call before after copies s).Transcribed f callee call h callee.entry
        (callee.block callee.entry).insns (copies ++ after) := by
    intro hreach
    refine hcopy.transfer (.inr ⟨last, by simp [hlist], value, hlast⟩) ?_ ?_
    · intro i hi j hj hopj
      rw [hbound.insn j fun heq => hnot_copies (heq ▸ hj), hcall]
      refine ⟨Op.mapOperands_eq_self fun v hv => rebind_of_ne fun hd => ?_, rfl⟩
      rw [hopj, Op.operands_mapTargets, Op.operands_mapOperands] at hv
      obtain ⟨u, hu, rfl⟩ := mem_map.1 hv
      obtain ⟨pre, post, hsplit⟩ := append_of_mem hi
      have hav := hc.flow.insn_avail _ pre i post hsplit u hu
      have hcarried := carried_of_availBefore hc .start hplain hsplit hav
      exact hsplice.bindings.ne_dest hf hhome hreach (hsplice.value_eq hs hc hentry hcarried) hd
    · rintro v js ⟨rfl, hv⟩ D params env
      refine ⟨0, env, .refl _, fun _ _ => rfl, fun _ _ => rfl, fun d hd => ?_⟩
      cases hr : s.returned with
      | none =>
        refine .inl fun site hsite => hunread hr d (by rw [hcall, hd]) site ?_
        cases site with
        | insn i =>
          have hi := f.lt_insns_of_live (hexact.live_of_reads_insn hsite)
          rwa [Reads, hsplice.insn i hi]
        | phi q => rwa [Reads, hsplice.phi q]
      | some r =>
        obtain ⟨u, hu, rfl⟩ := Option.map_eq_some_iff.1 (hv.symm.trans hr)
        exact .inr ⟨_, u, hr, hu, rfl⟩
  refine ⟨spliceSeam f call before after copies s, ?_, fun b hmem => ?_⟩
  · exact
      { home := hhome
        uncovered := huncovered
        tail := .inl rfl
        entry := hentry
        head := hhead
        head_handlers := by rw [(hshape _).2.2, huncovered]
        tail_handlers := (hshape _).2.2.trans huncovered
        insns := fun b _ hb => by rw [hother b hb]
        handlers := fun b _ _ => (hshape b).2.2
        successors := hsuccessors
        predecessors := fun b _ => by
          rw [predecessors, (hshape b).2.1, map_congr_left (g := id) fun p _ =>
            behind_spliceSeam p, map_id, predecessors]
        phis := fun b _ => (hshape b).1
        phi_value := fun q _ => by rw [hphi]
        phi_operands := fun q _ => by rw [hphi]; rfl
        op := fun i hi hne => by rw [hinsn i hi hne]; rfl
        dest := fun i hi hne => by rw [hinsn i hi hne]
        result := hresult
        plain := hplain
        copy_plain := fun _ _ => (hshape _).2.2.trans huncovered
        passed := fun _ i index w hi hw => by
          obtain ⟨v, hv⟩ := hsplice.bound i (hs.mem_entry hc hw) (fun v hret => by
            rw [hi] at hret
            cases hret) w hw
          have hvalue : s.names.value w = v := by rw [Renaming.value, hv, Option.getD_some]
          exact (hsplice.bindings.passed hc.exact hi hw hv).trans (congrArg some hvalue.symm)
        fresh := fun w hw => hsplice.fresh hs hc hentry hw
        inj := fun w w' hw hw' heq => by
          have hget := hsplice.value_eq hs hc hentry hw.carried
          have hget' := hsplice.value_eq hs hc hentry hw'
          rw [show s.names.value w' = s.names.value w from heq.symm] at hget'
          exact hsplice.bindings.inj w w' _ hget hget' (hsplice.fresh hs hc hentry hw)
        block_inj := fun a b ha hb _ => (hs.only a ha).trans (hs.only b hb).symm
        copy_successors := fun b hb hne => absurd (hs.successors hplain hb) hne
        copy_predecessors := fun b hne => absurd (hs.predecessors hc hplain b) hne
        copy_insns := fun _ b hne => absurd (hs.predecessors hc hplain b) hne
        copy_phis := fun _ b hne => absurd (hs.predecessors hc hplain b) hne
        enters := fun hreach => ⟨copies ++ after, hcopied hreach, fun _ _ _ => ⟨0, .refl _⟩⟩ }
  · rw [hbound.block, mem_filter] at hmem
    exact absurd rfl (of_decide_eq_true hmem.2)

end Run

end Inlined

end Dissolve.Inline
