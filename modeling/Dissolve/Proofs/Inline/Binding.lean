import Dissolve.Inline.Call
import Dissolve.Proofs.Semantics.Calls
import Dissolve.Proofs.Ssa.BlockEdits

/-!
# Proofs.Inline.Binding — what stands for the values of a call

Two things tie a copied body to its caller. A renaming says what stands for the values of the callee:
parameters are replaced by operands of the call, everything else by new values (`Bindings`). And the
value of the call is replaced by what the body returns, after which the call is taken out (`Rebound`).
-/

namespace Dissolve

open List Assoc
open Ssa (Edit Function Op Position)

namespace Inline

open Semantics
open Ssa.Function

/-- A call that can be replaced by the body of the callee: no handler covers the call or the body. -/
structure Unguarded (f callee : Function) (call : InsnId) : Prop where
  op : (f.insn call).op.isTerminator = false
  uncovered : (f.block (f.insn call).block).handlers = []
  plain : ∀ b, (callee.block b).handlers = []

/-! ## Reading the result -/

section Rebind

variable {f g h : Function} {call last : InsnId} {returned : Option ValueId}

lemma bindResult_ok (hrun : (bindResult call returned).run f = .ok () g) :
    (∃ d v, (f.insn call).dest = some d ∧ returned = some v ∧ g = (f.replaceAllUses d v).2) ∨
      g = f ∧ ∀ d, (f.insn call).dest = some d → returned = none ∧ (f.value d).users = [] := by
  obtain ⟨f', f'', ⟨⟩, hrun⟩ := Edit.ok_of_bind hrun
  cases hdest : (f.insn call).dest with
  | none =>
    simp only [hdest] at hrun
    cases hrun
    exact .inr ⟨rfl, fun d hd => (Option.some_ne_none d hd.symm).elim⟩
  | some d =>
    simp only [hdest] at hrun
    cases returned with
    | some v =>
      cases hrun
      exact .inl ⟨d, v, rfl, rfl, rfl⟩
    | none =>
      dsimp only at hrun
      split at hrun
      · cases hrun
      · rename_i hunused
        cases hrun
        refine .inr ⟨rfl, fun d' hd => ?_⟩
        cases hd
        exact ⟨rfl, by simpa [Ssa.Value.isUnused] using hunused⟩

/-- The call is gone, and the result is read instead of its value. -/
structure Rebound (f : Function) (call : InsnId) (result : Option ValueId) (h : Function) : Prop where
  block : ∀ b, h.block b = { f.block b with insns := (f.block b).insns.filter fun j => j ≠ call }
  insn : ∀ i, i ≠ call → h.insn i =
    { f.insn i with op := (f.insn i).op.mapOperands (rebind (f.insn call).dest result) }
  phi : ∀ q, h.phi q =
    { f.phi q with operands := (f.phi q).operands.map (rebind (f.insn call).dest result) }
  ne : ∀ d, (f.insn call).dest = some d → result = some d → d ∉ (f.insn call).op.operands

lemma rebound_of_run (hlive : f.LiveInsn call) (hmem : call ∈ (f.block (f.insn call).block).insns)
    (honly : ∀ b, call ∈ (f.block b).insns → (f.insn call).block = b)
    (husers : ∀ d, (f.insn call).dest = some d → ∀ site, site ∈ (f.value d).users ↔ f.Reads d site)
    (hbind : (bindResult call returned).run f = .ok () g)
    (hremove : (Ssa.removeInsn call).run g = .ok () h) :
    Rebound f call returned h ∧
      (returned = none → ∀ d, (f.insn call).dest = some d → ∀ site, ¬f.Reads d site) := by
  have hlt : (f.insn call).block.index < f.blocks.size := by
    by_contra hle
    rw [f.block_of_size_le (by omega)] at hmem
    simp [Ssa.Block.gone] at hmem
  -- in other blocks there is nothing to take out
  have hfilter : ∀ b, (f.insn call).block ≠ b →
      (f.block b).insns.filter (fun j => j ≠ call) = (f.block b).insns := by
    intro b hb
    rw [filter_eq_self]
    intro j hj
    refine decide_eq_true fun heq => hb ?_
    exact honly b (heq ▸ hj)
  rcases bindResult_ok hbind with ⟨d, v, hdest, rfl, rfl⟩ | ⟨rfl, hunused⟩
  · have hinsn := f.insn_replaceAllUses_of (husers d hdest) v
    have hphi := f.phi_replaceAllUses_of (husers d hdest) v
    have hread : rebind (f.insn call).dest (some v) = redirect d v := by
      funext u
      by_cases hu : u = d
      · simp [rebind, hdest, hu]
      · simp [rebind, redirect, hdest, hu, Ne.symm hu]
    obtain ⟨rfl, hunread⟩ := removeInsn_ok (by rw [LiveInsn, hinsn, redirectInsn, hlive]) hremove
    refine ⟨⟨fun b => ?_, fun i hi => ?_, fun q => ?_, ?_⟩,
      fun hnone => (Option.some_ne_none v hnone).elim⟩
    · rw [block_withoutInsn (by rw [hinsn, redirectInsn]; simpa using hlt), hinsn, redirectInsn]
      split
      · simp
      · rename_i hb
        rw [block_replaceAllUses, hfilter b hb]
    · rw [insn_withoutInsn hi, hinsn, hread, redirectInsn]
    · rw [phi_withoutInsn, hphi, hread, redirectPhi]
    · intro d' hd' hv hread'
      obtain rfl := Option.some.inj (hdest.symm.trans hd')
      obtain rfl := Option.some.inj hv
      rw [replaceAllUses_self] at hunread
      have hreads := (husers v hdest (.insn call)).2 hread'
      rw [hunread v hdest] at hreads
      cases hreads
  · obtain ⟨rfl, -⟩ := removeInsn_ok hlive hremove
    have hread : ∀ v, rebind (g.insn call).dest returned v = v := by
      intro v
      unfold rebind
      split
      · rename_i hd
        rw [(hunused v hd).1]
        rfl
      · rfl
    refine ⟨⟨fun b => ?_, fun i hi => ?_, fun q => ?_, ?_⟩, fun _ d hd site hsite => ?_⟩
    · rw [block_withoutInsn hlt]
      split
      · rfl
      · rename_i hb
        rw [hfilter b hb]
    · rw [insn_withoutInsn hi, Op.mapOperands_eq_self fun v _ => hread v]
    · rw [phi_withoutInsn, map_congr_left (g := id) fun v _ => hread v, map_id]
    · intro d hd hv
      rw [(hunused d hd).1] at hv
      cases hv
    · have hreads := (husers d hd site).2 hsite
      rw [(hunused d hd).2] at hreads
      cases hreads

lemma successors_of_last {b c : BlockId} {front front' : List InsnId} {k : ValueId → ValueId}
    (hb : (f.block b).insns = front ++ [last]) (hc : (h.block c).insns = front' ++ [last])
    (hterm : (f.insn last).op.isTerminator)
    (hop : (h.insn last).op = (f.insn last).op.mapOperands k)
    (hhandlers : (h.block c).handlers = (f.block b).handlers) :
    h.successors c = f.successors b := by
  have hterm' : (h.insn last).op.isTerminator = true := by rw [hop, Op.isTerminator_mapOperands, hterm]
  rw [successors, successors, normalSuccessors_of_last hb hterm,
    normalSuccessors_of_last hc hterm', hop, Op.targets_mapOperands, hhandlers]

end Rebind

/-! ## What stands for a value -/

/-- What stands for the values of the callee: operands of the call for its parameters, and values from
`bound` up to `size` for others, no two of which share one. -/
structure Bindings (callee : Function) (args : List ValueId) (bound size : Nat)
    (values : Assoc ValueId ValueId) : Prop where
  cases : ∀ w v, values.get? w = some v →
    (∃ i index, (callee.insn i).op = .argument index ∧ (callee.insn i).dest = some w ∧
      args[index]? = some v) ∨
    ((∀ i index, (callee.insn i).op = .argument index → (callee.insn i).dest ≠ some w) ∧
      bound ≤ v.index ∧ v.index < size)
  inj : ∀ w w' v, values.get? w = some v → values.get? w' = some v → bound ≤ v.index → w = w'

namespace Bindings

variable {callee f : Function} {args : List ValueId} {bound size : Nat}
  {values : Assoc ValueId ValueId} {w v : ValueId}

lemma empty : Bindings callee args bound size {} :=
  ⟨fun _ _ h => (Option.some_ne_none _ h.symm).elim, fun _ _ _ h => (Option.some_ne_none _ h.symm).elim⟩

section

variable {i : InsnId} {index : Nat} (h : Bindings callee args bound size values)
include h

section

variable (hargs : ∀ v ∈ args, v.index < bound)
include hargs

lemma lt (hbound : bound ≤ size) (hv : values.get? w = some v) : v.index < size := by
  rcases h.cases w v hv with ⟨-, index, -, -, hget⟩ | ⟨-, -, hlt⟩
  · exact (hargs v (mem_of_getElem? hget)).trans_le hbound
  · exact hlt

lemma insert_argument (hop : (callee.insn i).op = .argument index)
    (hdest : (callee.insn i).dest = some w) (hv : args[index]? = some v) :
    Bindings callee args bound size (values.insert w v) := by
  have hlt := hargs v (mem_of_getElem? hv)
  refine ⟨fun u x hx => ?_, fun u u' x hx hx' hle => ?_⟩
  · rcases of_get?_insert hx with ⟨rfl, rfl⟩ | hx
    · exact .inl ⟨i, index, hop, hdest, hv⟩
    · exact h.cases u x hx
  · rcases of_get?_insert hx with ⟨-, rfl⟩ | hx
    · omega
    · rcases of_get?_insert hx' with ⟨-, rfl⟩ | hx'
      · omega
      · exact h.inj u u' x hx hx' hle

lemma insert_new (hbound : bound ≤ size)
    (hw : ∀ i index, (callee.insn i).op = .argument index → (callee.insn i).dest ≠ some w) :
    Bindings callee args bound (size + 1) (values.insert w ⟨size⟩) := by
  have hold : ∀ u x, values.get? u = some x → x.index < size := fun u x hx =>
    h.lt hargs hbound hx
  refine ⟨fun u x hx => ?_, fun u u' x hx hx' hle => ?_⟩
  · rcases of_get?_insert hx with ⟨rfl, rfl⟩ | hx
    · exact .inr ⟨hw, hbound, Nat.lt_succ_self _⟩
    · rcases h.cases u x hx with hcase | ⟨hnot, hge, hlt⟩
      · exact .inl hcase
      · exact .inr ⟨hnot, hge, by omega⟩
  · rcases of_get?_insert hx with ⟨heq, rfl⟩ | hx <;>
      rcases of_get?_insert hx' with ⟨heq', heq''⟩ | hx'
    · exact heq.symm.trans heq'
    · exact absurd (hold u' _ hx') (Nat.lt_irrefl _)
    · exact absurd (hold u x hx) (heq'' ▸ Nat.lt_irrefl _)
    · exact h.inj u u' x hx hx' hle

end

lemma passed (hc : callee.Exact) (hop : (callee.insn i).op = .argument index)
    (hw : (callee.insn i).dest = some w) (hv : values.get? w = some v) : args[index]? = some v := by
  rcases h.cases w v hv with ⟨j, index', hj, hjw, hget⟩ | ⟨hnot, -⟩
  · obtain rfl := hc.insn_unique hjw hw
    obtain rfl := Op.argument.inj (hj.symm.trans hop)
    exact hget
  · exact absurd hw (hnot i index hop)

lemma fresh (hc : callee.Exact)
    (hw : Named callee w) (hv : values.get? w = some v) : bound ≤ v.index := by
  rcases h.cases w v hv with ⟨i, index, hop, hi, -⟩ | ⟨-, hle, -⟩
  · obtain ⟨site, hsite, hnot⟩ := hw
    obtain rfl := hc.defines_unique (v := w) (s := site) (t := .insn i) hsite hi
    exact absurd hop ((hnot i rfl).2 index)
  · exact hle

end

lemma ne_dest {call : InsnId} {before after : List InsnId}
    (h : Bindings callee (f.insn call).op.operands f.values.size size values) (hf : f.WellFormed)
    (hhome : (f.block (f.insn call).block).insns = before ++ call :: after)
    (hreach : ∃ t, f.Trail ((f.insn call).block :: t)) (hv : values.get? w = some v) :
    (f.insn call).dest ≠ some v := by
  intro hd
  rcases h.cases w v hv with ⟨-, index, -, -, hget⟩ | ⟨-, hle, -⟩
  · exact hf.exact.not_availBefore hd rfl (hf.exact.not_mem_of_split hhome).1 hreach
      (hf.flow.insn_avail _ before call after hhome _ (mem_of_getElem? hget))
  · exact absurd (Semantics.Inlined.lt_of_dest hf hd) (Nat.not_lt.2 hle)

end Bindings

end Inline

end Dissolve
