import Dissolve.Inline.FieldValues
import Dissolve.Proofs.Ssa.Regular

/-!
# Proofs.Inline.Resolving — what is learned about a field

A resolver records what a field of an instance holds at the starts and ends of blocks. Every entry is
justified by its neighbours (`Resolver.Sound`): at the end of a block the field holds what its last
write in the block left, else what it held at the start; at the start it holds what it held at the end
of the only predecessor, or the value of a phi over what it held at the ends of all of them.

* `Stage.availStart`, `Stage.availEnd`: along a trail the justifications lead back to a definition, so
  recorded values are available where they are recorded.
* `resolves_heldAtStart`, `resolves_heldAtRead`: looking a field up keeps the resolver sound and gives a
  value that the field holds.
-/

namespace Dissolve.Inline

open List
open Ssa (Const Edit Function Op)
open Ssa.Function

variable {α β : Type} {q : PhiId} {n : Nat} {l : List InsnId}
  {atStart : BlockId → Resolving ValueId} {ty : ValueType}

/-! ## Edits that add phis and constants -/

/-- New phis and constants were added; what stood there before has not changed. -/
structure Enlarges (f g : Function) : Prop where
  extended : f.Extends g
  retained : f.Retains g
  phis : ∀ q, (f.phi q).removed = false → g.phi q = f.phi q
  plain : ∀ i : InsnId, f.insns.size ≤ i.index → (g.insn i).removed = false →
    ∃ c, (g.insn i).op = .const c
  gone : ∀ b, f.block b = Ssa.Block.gone → g.block b = Ssa.Block.gone
  last : ∀ b, (g.block b).insns.getLast? = (f.block b).insns.getLast?

namespace Enlarges

variable {f g h : Function}

lemma refl (hf : f.Exact) : Enlarges f f where
  extended := .refl hf
  retained := .refl f
  phis _ _ := rfl
  plain _ hi hlive := absurd (f.lt_insns_of_live hlive) (Nat.not_lt.2 hi)
  gone _ hb := hb
  last _ := rfl

lemma trans (hfg : Enlarges f g) (hgh : Enlarges g h) : Enlarges f h where
  extended := hfg.extended.trans hgh.extended
  retained := hfg.retained.trans hgh.retained
  phis q hq := by
    rw [hgh.phis q (by rwa [hfg.phis q hq]), hfg.phis q hq]
  plain i hi hlive := by
    rcases Nat.lt_or_ge i.index g.insns.size with hlt | hge
    · rw [hgh.extended.insn i hlt] at hlive ⊢
      exact hfg.plain i hi hlive
    · exact hgh.plain i hge hlive
  gone b hb := hgh.gone b (hfg.gone b hb)
  last b := (hgh.last b).trans (hfg.last b)

lemma setPhiOperands (he : Enlarges f g) (hg : g.Exact) (hq : f.phis.size ≤ q.index)
    (ops : List ValueId) : Enlarges f (g.setPhiOperands q ops) where
  extended := he.extended.trans (.setPhiOperands hg q ops)
  retained := he.retained.trans (.setPhiOperands g q ops)
  phis p hp := by
    have hne : ¬(q = p ∧ g.HasPhi q) := by
      rintro ⟨rfl, -⟩
      exact absurd (f.lt_phis_of_live hp) (Nat.not_lt.2 hq)
    rw [phi_setPhiOperands, if_neg hne, he.phis p hp]
  plain i hi hlive := by
    rw [insn_setPhiOperands] at hlive ⊢
    exact he.plain i hi hlive
  gone b hb := by rw [block_setPhiOperands, he.gone b hb]
  last b := by rw [block_setPhiOperands, he.last b]

lemma wellFormed (he : Enlarges f g) (hf : f.WellFormed) (hg : g.Flow fun _ => False) :
    g.WellFormed :=
  he.extended.wellFormed hf hg he.retained.removed he.retained.handlers he.gone he.last
    he.retained.fresh

end Enlarges

/-! ## Writes -/

structure AllocationSite.StandsIn (site : AllocationSite) (f : Function) : Prop where
  op : (f.insn site.insn).op = .newInstance site.ty
  dest : (f.insn site.insn).dest = some site.value

def written? (f : Function) (site : AllocationSite) (field : FieldRef) (insns : List InsnId) :
    Option LastWrite :=
  insns.reverse.findSome? (writtenBy? f site field)

lemma findSome?_filter_of_none {p : α → Bool} {g : α → Option β} {l : List α}
    (hnone : ∀ x ∈ l, p x = false → g x = none) : (l.filter p).findSome? g = l.findSome? g := by
  induction l with
  | nil => rfl
  | cons x rest ih =>
    have ih := ih fun y hy => hnone y (mem_cons_of_mem x hy)
    by_cases hx : p x = true
    · rw [filter_cons_of_pos hx, findSome?_cons, findSome?_cons, ih]
    · rw [filter_cons_of_neg hx, findSome?_cons, ih, hnone x mem_cons_self (by simpa using hx)]

section Written

variable {f g : Function} {site : AllocationSite} {field : FieldRef} {i : InsnId} {v : ValueId}

lemma writtenBy?_const {c : Const} (hop : (f.insn i).op = .const c) (hi : i ≠ site.insn) :
    writtenBy? f site field i = none := by
  rw [writtenBy?, hop]
  exact if_neg hi

lemma writtenBy?_congr (hi : g.insn i = f.insn i) :
    writtenBy? g site field i = writtenBy? f site field i := by
  rw [writtenBy?, writtenBy?, hi]

lemma Enlarges.written? (he : Enlarges f g) (hsite : site.insn.index < f.insns.size)
    (hl : ∀ i ∈ l, g.LiveInsn i) :
    written? g site field l = written? f site field (l.filter fun i => f.HasInsn i) := by
  have hsome : ∀ l' : List InsnId, (∀ i ∈ l', f.HasInsn i) →
      l'.findSome? (writtenBy? g site field) = l'.findSome? (writtenBy? f site field) := by
    intro l' hl'
    induction l' with
    | nil => rfl
    | cons i rest ih =>
      rw [findSome?_cons, findSome?_cons, ih fun j hj => hl' j (mem_cons_of_mem i hj),
        writtenBy?_congr (he.extended.insn i (hl' i mem_cons_self))]
  rw [Inline.written?, Inline.written?, ← filter_reverse, ← hsome, findSome?_filter_of_none]
  · intro i hi hnew
    have hge : f.insns.size ≤ i.index := by simpa using hnew
    obtain ⟨c, hop⟩ := he.plain i hge (hl i (mem_reverse.1 hi))
    refine writtenBy?_const hop ?_
    rintro rfl
    omega
  · intro i hi
    simpa using (mem_filter.1 hi).2

lemma written?_value (h : written? f site field l = some (.value v)) :
    ∃ i ∈ l, v ∈ (f.insn i).op.operands := by
  obtain ⟨i, hi, hw⟩ := exists_of_findSome?_eq_some h
  refine ⟨i, mem_reverse.1 hi, ?_⟩
  unfold writtenBy? at hw
  split at hw
  · rename_i written object value hop
    split at hw
    · obtain rfl : value = v := by simpa using hw
      simp [hop, Op.operands]
    · split at hw <;> simp at hw
  · split at hw <;> simp at hw

lemma written?_allocation (h : written? f site field l = some .allocation) : site.insn ∈ l := by
  obtain ⟨i, hi, hw⟩ := exists_of_findSome?_eq_some h
  have heq : i = site.insn := by
    by_contra hne
    unfold writtenBy? at hw
    simp only [if_neg hne] at hw
    split at hw
    · split at hw <;> cases hw
    · cases hw
  exact heq ▸ mem_reverse.1 hi

end Written

/-! ## Sound resolvers -/

namespace Resolver

variable (r : Resolver) (f : Function) (site : AllocationSite) (field : FieldRef)

/-- The field holds a value behind some instructions of a block. -/
def Holds (b : BlockId) (insns : List InsnId) (v : ValueId) : Prop :=
  match written? f site field insns with
  | some (.value w) => v = w
  | some .allocation => r.zero = some v
  | none => r.incoming.get? b = some v

/-- Every entry is justified by its neighbours; the phis that satisfy `pending` have no operands yet. -/
structure Sound (pending : PhiId → Prop) : Prop where
  zero : ∀ v, r.zero = some v → ∃ j ∈ f.front site.insn, (f.insn j).dest = some v ∧
    ∃ ty, field.ty.valueType? = some ty ∧ (f.insn j).op = .const (.zero ty)
  incoming : ∀ b v, r.incoming.get? b = some v →
    (∃ p, f.predecessors b = [p] ∧ r.outgoing.get? p = some v) ∨
    ∃ q, (f.phi q).removed = false ∧ (f.phi q).block = b ∧ (f.phi q).value = v ∧
      (∀ p, f.predecessors b ≠ [p]) ∧
      (pending q ∨ List.Forall₂ (fun p u => r.outgoing.get? p = some u) (f.predecessors b)
        (f.phi q).operands)
  outgoing : ∀ b v, r.outgoing.get? b = some v → r.Holds f site field b (f.block b).insns v
  incoming_defined : ∀ b v, r.incoming.get? b = some v → ((f.value v).definition).isSome
  outgoing_defined : ∀ b v, r.outgoing.get? b = some v → ((f.value v).definition).isSome

/-- The resolver keeps its entries. -/
structure Learns (r r' : Resolver) : Prop where
  zero : ∀ v, r.zero = some v → r'.zero = some v
  incoming : ∀ b v, r.incoming.get? b = some v → r'.incoming.get? b = some v
  outgoing : ∀ b v, r.outgoing.get? b = some v → r'.outgoing.get? b = some v

lemma Learns.refl : Learns r r :=
  ⟨fun _ h => h, fun _ _ h => h, fun _ _ h => h⟩

variable {r f site field} {r' r'' : Resolver} {g : Function} {b : BlockId} {v w : ValueId}

lemma Learns.trans (h : Learns r r') (h' : Learns r' r'') : Learns r r'' :=
  ⟨fun v hv => h'.zero v (h.zero v hv), fun b v hv => h'.incoming b v (h.incoming b v hv),
    fun b v hv => h'.outgoing b v (h.outgoing b v hv)⟩

lemma learns_insert_incoming (hnew : ∀ w, r.incoming.get? b = some w → w = v) :
    Learns r { r with incoming := r.incoming.insert b v } := by
  refine ⟨fun _ h => h, fun c w hw => ?_, fun _ _ h => h⟩
  rw [Assoc.get?_insert]
  split
  · next hbc => rw [hnew w (hbc ▸ hw)]
  · exact hw

lemma learns_insert_outgoing (hnew : ∀ w, r.outgoing.get? b = some w → w = v) :
    Learns r { r with outgoing := r.outgoing.insert b v } := by
  refine ⟨fun _ h => h, fun _ _ h => h, fun c w hw => ?_⟩
  rw [Assoc.get?_insert]
  split
  · next hbc => rw [hnew w (hbc ▸ hw)]
  · exact hw

namespace Holds

section

variable (hv : r.Holds f site field b l v)
include hv

lemma unique (hw : r.Holds f site field b l w) : v = w := by
  unfold Holds at hv hw
  cases hlast : written? f site field l with
  | none =>
    simp only [hlast] at hv hw
    exact Option.some.inj (hv.symm.trans hw)
  | some write =>
    cases write with
    | value u =>
      simp only [hlast] at hv hw
      rw [hv, hw]
    | allocation =>
      simp only [hlast] at hv hw
      exact Option.some.inj (hv.symm.trans hw)

lemma learns (h : Learns r r') : r'.Holds f site field b l v := by
  unfold Holds at hv ⊢
  split
  · simp_all
  · rename_i hw
    rw [hw] at hv
    exact h.zero v hv
  · rename_i hw
    rw [hw] at hv
    exact h.incoming b v hv

lemma congr_written {l' : List InsnId} (hl : written? g site field l' = written? f site field l) :
    r.Holds g site field b l' v := by
  unfold Holds
  rwa [hl]

end

end Holds

end Resolver

/-! ## Stages of a search -/

/-- A function with an allocation and what is known about a field of the instance. -/
structure Stage (site : AllocationSite) (field : FieldRef) (pending : PhiId → Prop) (r : Resolver)
    (f : Function) : Prop where
  flow : f.Flow pending
  stands : site.StandsIn f
  sound : r.Sound f site field pending

section Stages

variable {site : AllocationSite} {field : FieldRef} {pending : PhiId → Prop} {r : Resolver}
  {f g : Function} {b : BlockId} {v : ValueId} {t : List BlockId} {i : InsnId}

lemma AllocationSite.StandsIn.live (h : site.StandsIn f) (hf : f.Exact) : f.LiveInsn site.insn :=
  hf.live_of_dest h.dest

lemma AllocationSite.StandsIn.lt (h : site.StandsIn f) (hf : f.Exact) :
    site.insn.index < f.insns.size :=
  f.lt_insns_of_live (h.live hf)

lemma standsIn_of_collect (hf : f.Exact) (h : site ∈ AllocationSite.collect f) :
    site.StandsIn f ∧ site.insn.index < f.insns.size := by
  obtain ⟨i, -, hi⟩ := mem_filterMap.1 h
  unfold AllocationSite.ofInsn? at hi
  split at hi
  · rename_i hop hdest
    cases hi
    exact ⟨⟨hop, hdest⟩, AllocationSite.StandsIn.lt ⟨hop, hdest⟩ hf⟩
  · cases hi

lemma AllocationSite.StandsIn.enlarges (h : site.StandsIn f) (hf : f.Exact) (he : Enlarges f g) :
    site.StandsIn g := by
  have hinsn := he.extended.insn _ (h.lt hf)
  exact ⟨by rw [hinsn, h.op], by rw [hinsn, h.dest]⟩

lemma Resolver.Holds.enlarges (he : Enlarges f g) (hsite : site.insn.index < f.insns.size)
    (hl : ∀ i ∈ l, g.LiveInsn i) (hv : r.Holds f site field b (l.filter fun i => f.HasInsn i) v) :
    r.Holds g site field b l v :=
  hv.congr_written (he.written? hsite hl)

lemma Resolver.Holds.front (he : Enlarges f g) (hg : g.Exact)
    (hsite : site.insn.index < f.insns.size) (hlive : (f.insn i).removed = false)
    (hv : r.Holds f site field (f.insn i).block (f.front i) v) :
    (g.insn i).removed = false ∧ r.Holds g site field (g.insn i).block (g.front i) v := by
  have hlt := f.lt_insns_of_live hlive
  rw [he.extended.insn i hlt]
  refine ⟨hlive, .enlarges he hsite (fun j hj => ?_) (by rwa [he.extended.front hlt])⟩
  exact ((hg.insns_iff _ j).1 (takeWhile_subset _ hj)).1

lemma Resolver.Sound.enlarges (hr : r.Sound f site field pending) (he : Enlarges f g)
    (hg : g.Exact) (hsite : site.insn.index < f.insns.size) : r.Sound g site field pending where
  zero v hv := by
    obtain ⟨j, hj, hdest, ty, hty, hop⟩ := hr.zero v hv
    have hinsn := he.extended.insn j (f.lt_insns_of_dest hdest)
    exact ⟨j, he.extended.mem_front hsite hj, by rw [hinsn, hdest], ty, hty, by rw [hinsn, hop]⟩
  incoming b v hv := by
    rw [he.extended.preds]
    refine (hr.incoming b v hv).imp_right ?_
    rintro ⟨q, hlive, hb, hvalue, hsingle, hops⟩
    exact ⟨q, by rw [he.phis q hlive, hlive], by rw [he.phis q hlive, hb],
      by rw [he.phis q hlive, hvalue], hsingle, by rw [he.phis q hlive]; exact hops⟩
  outgoing b v hv := by
    refine .enlarges he hsite (fun i hi => ((hg.insns_iff b i).1 hi).1) ?_
    rw [he.extended.insns]
    exact hr.outgoing b v hv
  incoming_defined b v hv := he.extended.defined (hr.incoming_defined b v hv)
  outgoing_defined b v hv := he.extended.defined (hr.outgoing_defined b v hv)

lemma Stage.enlarges (h : Stage site field pending r f) (he : Enlarges f g) (hg : g.Flow pending) :
    Stage site field pending r g where
  flow := hg
  stands := h.stands.enlarges h.flow.exact he
  sound := h.sound.enlarges he hg.exact (h.stands.lt h.flow.exact)

lemma Resolver.Holds.defined (h : Stage site field pending r f)
    (hv : r.Holds f site field b l v) : ((f.value v).definition).isSome := by
  unfold Holds at hv
  split at hv
  · rename_i w hw
    subst hv
    obtain ⟨i, -, hi⟩ := written?_value hw
    exact h.flow.defined v (.insn i) hi
  · obtain ⟨j, -, hdest, -⟩ := h.sound.zero v hv
    rw [(h.flow.exact.definition_iff v (.insn j)).2 hdest]
    rfl
  · exact h.sound.incoming_defined b v hv

/-! ### Recorded values are available -/

/-- On a trail a value was defined before the start of the block or by a phi of it. -/
def Begun (f : Function) (v : ValueId) (b : BlockId) (t : List BlockId) : Prop :=
  (∃ c ∈ t, f.definingBlock? v = some c) ∨ f.IsPhiOf v b

lemma Begun.atEnd (h : Begun f v b t) : ∃ c ∈ b :: t, f.definingBlock? v = some c := by
  rcases h with ⟨c, hc, hdef⟩ | hphi
  · exact ⟨c, mem_cons_of_mem b hc, hdef⟩
  · exact ⟨b, mem_cons_self, hphi.definingBlock?⟩

lemma Resolver.Holds.begun {rest : List InsnId} (h : Stage site field pending r f)
    (hlist : (f.block b).insns = l ++ rest) (ht : f.Trail (b :: t))
    (hstart : ∀ w, r.incoming.get? b = some w → Begun f w b t) (hv : r.Holds f site field b l v) :
    (∃ i ∈ l, (f.insn i).dest = some v) ∨ Begun f v b t := by
  -- what stands before an instruction of `l` is in `l`
  have hfront : ∀ i ∈ l, (f.insn i).block = b ∧ ∀ j ∈ f.front i, j ∈ l := by
    intro i hi
    obtain ⟨front, back, rfl⟩ := mem_iff_append.1 hi
    have hlist' : (f.block b).insns = front ++ i :: (back ++ rest) := by simp [hlist]
    refine ⟨(h.flow.exact.of_split hlist').2, fun j hj => ?_⟩
    rw [h.flow.exact.front_eq hlist'] at hj
    exact mem_append_left _ hj
  unfold Holds at hv
  split at hv
  · rename_i w hw
    subst hv
    obtain ⟨i, hi, hread⟩ := written?_value hw
    obtain ⟨hb, hsub⟩ := hfront i hi
    have havail := h.flow.availAt_operand hread
    rw [AvailAt, hb] at havail
    exact (havail.mono hsub).imp_right fun hstart => hstart t ht
  · rename_i hw
    obtain ⟨j, hj, hdest, -⟩ := h.sound.zero v hv
    exact .inl ⟨j, (hfront _ (written?_allocation hw)).2 j hj, hdest⟩
  · exact .inr (hstart v hv)

lemma Resolver.Holds.begun_end (h : Stage site field pending r f) (ht : f.Trail (b :: t))
    (hstart : ∀ w, r.incoming.get? b = some w → Begun f w b t)
    (hv : r.Holds f site field b (f.block b).insns v) :
    ∃ c ∈ b :: t, f.definingBlock? v = some c := by
  rcases hv.begun h (append_nil _).symm ht hstart with ⟨i, hi, hdest⟩ | hbegun
  · refine ⟨b, mem_cons_self, ?_⟩
    rw [h.flow.exact.definingBlock?_of_dest hdest, ((h.flow.exact.insns_iff b i).1 hi).2]
  · exact hbegun.atEnd

namespace Stage

section

variable (h : Stage site field pending r f)
include h

lemma begun (ht : f.Trail (b :: t)) (hv : r.incoming.get? b = some v) : Begun f v b t := by
  induction t generalizing b v with
  | nil =>
    rcases h.sound.incoming b v hv with ⟨p, hp, -⟩ | ⟨q, hlive, hb, hvalue, -⟩
    · cases ht
      rw [h.flow.entry_preds] at hp
      cases hp
    · exact .inr (hb ▸ hvalue ▸ h.flow.exact.isPhiOf_phi hlive)
  | cons p t ih =>
    rcases h.sound.incoming b v hv with ⟨p', hp, hout⟩ | ⟨q, hlive, hb, hvalue, -⟩
    · have hedge := ht.edge
      rw [hp, mem_singleton] at hedge
      subst hedge
      exact .inl ((h.sound.outgoing p v hout).begun_end h ht.tail fun w hw => ih ht.tail hw)
    · exact .inr (hb ▸ hvalue ▸ h.flow.exact.isPhiOf_phi hlive)

theorem availEnd (hv : r.outgoing.get? b = some v) : f.AvailEnd v b :=
  fun _ ht => (h.sound.outgoing b v hv).begun_end h ht fun _ hw => h.begun ht hw

lemma availAt (hlive : f.LiveInsn i)
    (hv : r.Holds f site field (f.insn i).block (f.front i) v) : f.AvailAt v i := by
  obtain ⟨after, hlist⟩ := h.flow.exact.insns_eq_front hlive
  by_cases hdest : ∃ j ∈ f.front i, (f.insn j).dest = some v
  · exact .inl hdest
  · exact .inr fun t ht =>
      (hv.begun h hlist ht fun w hw => h.begun ht hw).resolve_left hdest

/-! ### New entries -/

lemma insert_outgoing (hv : r.Holds f site field b (f.block b).insns v) :
    Stage site field pending { r with outgoing := r.outgoing.insert b v } f ∧
      r.Learns { r with outgoing := r.outgoing.insert b v } := by
  have hnew : r.Learns { r with outgoing := r.outgoing.insert b v } :=
    Resolver.learns_insert_outgoing fun w hw => (h.sound.outgoing b w hw).unique hv
  refine ⟨⟨h.flow, h.stands, h.sound.zero, fun c w hw => ?_, fun c w hw => ?_,
    h.sound.incoming_defined, fun c w hw => ?_⟩, hnew⟩
  · refine (h.sound.incoming c w hw).imp ?_ ?_
    · rintro ⟨p, hp, hout⟩
      exact ⟨p, hp, hnew.outgoing p w hout⟩
    · rintro ⟨q, hlive, hq, hvalue, hsingle, hops⟩
      exact ⟨q, hlive, hq, hvalue, hsingle, hops.imp_right fun hops => hops.imp hnew.outgoing⟩
  · rcases Assoc.of_get?_insert hw with ⟨rfl, rfl⟩ | hw
    · exact hv.learns hnew
    · exact (h.sound.outgoing c w hw).learns hnew
  · rcases Assoc.of_get?_insert hw with ⟨-, rfl⟩ | hw
    · exact hv.defined h
    · exact h.sound.outgoing_defined c w hw

lemma insert_incoming {p : BlockId}
    (hp : f.predecessors b = [p]) (hv : r.outgoing.get? p = some v) :
    Stage site field pending { r with incoming := r.incoming.insert b v } f ∧
      r.Learns { r with incoming := r.incoming.insert b v } := by
  have hnew : r.Learns { r with incoming := r.incoming.insert b v } := by
    refine Resolver.learns_insert_incoming fun w hw => ?_
    rcases h.sound.incoming b w hw with ⟨p', hp', hout⟩ | ⟨q, -, -, -, hsingle, -⟩
    · rw [hp] at hp'
      cases hp'
      exact Option.some.inj (hout.symm.trans hv)
    · exact absurd hp (hsingle p)
  refine ⟨⟨h.flow, h.stands, h.sound.zero, fun c w hw => ?_,
    fun c w hw => (h.sound.outgoing c w hw).learns hnew, fun c w hw => ?_,
    h.sound.outgoing_defined⟩, hnew⟩
  · rcases Assoc.of_get?_insert hw with ⟨rfl, rfl⟩ | hw
    · exact .inl ⟨p, hp, hv⟩
    · exact h.sound.incoming c w hw
  · rcases Assoc.of_get?_insert hw with ⟨-, rfl⟩ | hw
    · exact h.sound.outgoing_defined p v hv
    · exact h.sound.incoming_defined c w hw

lemma open_phi (ty : ValueType) (phis : List PhiId)
    (hnone : r.incoming.get? b = none) (hpreds : f.predecessors b ≠ [])
    (hsingle : ∀ p, f.predecessors b ≠ [p]) :
    Stage site field (fun q => q = ⟨f.phis.size⟩ ∨ pending q)
        { r with incoming := r.incoming.insert b ⟨f.values.size⟩, phis }
        (f.insertPhi b ty).2 ∧
      Enlarges f (f.insertPhi b ty).2 ∧
      r.Learns { r with incoming := r.incoming.insert b ⟨f.values.size⟩, phis } := by
  have hb : f.HasBlock b := by
    by_contra hle
    rw [predecessors, f.block_of_size_le (Nat.le_of_not_lt hle)] at hpreds
    exact hpreds rfl
  have hg := h.flow.insertPhi ty hb
  have he : Enlarges f (f.insertPhi b ty).2 := by
    refine ⟨.insertPhi h.flow.exact b ty, .insertPhi f b ty, fun q hq => ?_, fun i hi hlive => ?_,
      fun c hc => ?_, fun c => ?_⟩
    · rw [phi_insertPhi, if_neg (f.lt_phis_of_live hq).ne]
    · exact absurd (f.lt_insns_of_live hlive) (Nat.not_lt.2 hi)
    · rw [block_insertPhi, if_neg, hc]
      rintro ⟨rfl, -⟩
      rw [predecessors, hc] at hpreds
      exact hpreds rfl
    · rw [block_insertPhi]
      split <;> rfl
  have hnew : r.Learns { r with incoming := r.incoming.insert b ⟨f.values.size⟩, phis } := by
    obtain ⟨hzero, hin, hout⟩ := Resolver.learns_insert_incoming (r := r) (b := b)
      (v := ⟨f.values.size⟩) fun w hw => by
        rw [hnone] at hw
        cases hw
    exact ⟨hzero, hin, hout⟩
  have hsound := h.sound.enlarges he hg.exact (h.stands.lt h.flow.exact)
  have hphi : (f.insertPhi b ty).2.phi ⟨f.phis.size⟩ = { value := ⟨f.values.size⟩, block := b } := by
    rw [phi_insertPhi, if_pos rfl]
  refine ⟨⟨hg, h.stands.enlarges h.flow.exact he, hsound.zero, fun c w hw => ?_,
    fun c w hw => (hsound.outgoing c w hw).learns hnew, fun c w hw => ?_,
    hsound.outgoing_defined⟩, he, hnew⟩
  · rcases Assoc.of_get?_insert hw with ⟨rfl, rfl⟩ | hw
    · refine .inr ⟨⟨f.phis.size⟩, by rw [hphi], by rw [hphi], by rw [hphi], ?_, .inl (.inl rfl)⟩
      rwa [he.extended.preds]
    · refine (hsound.incoming c w hw).imp_right ?_
      rintro ⟨q, hlive, hq, hvalue, hsingle, hops⟩
      exact ⟨q, hlive, hq, hvalue, hsingle, hops.imp_left .inr⟩
  · rcases Assoc.of_get?_insert hw with ⟨-, rfl⟩ | hw
    · rw [value_insertPhi, if_pos rfl]
      rfl
    · exact hsound.incoming_defined c w hw

end

lemma fill_phi (ops : List ValueId)
    (h : Stage site field (fun p => p = q ∨ pending p) r f) (hq : ¬pending q)
    (hops : List.Forall₂ (fun p u => r.outgoing.get? p = some u) (f.predecessors (f.phi q).block) ops) :
    Stage site field pending r (f.setPhiOperands q ops) := by
  have hfilled : List.Forall₂ (fun p u => f.AvailEnd u p ∧ ((f.value u).definition).isSome)
      (f.predecessors (f.phi q).block) ops :=
    hops.imp fun p u hu => ⟨h.availEnd hu, h.sound.outgoing_defined p u hu⟩
  have hlive := (h.flow.waits q (.inl rfl)).1
  have hflow : (f.setPhiOperands q ops).Flow pending := by
    refine (h.flow.fillPhi (.inl rfl) hfilled).congr fun p => ?_
    constructor
    · rintro ⟨hne, hp⟩
      exact hp.resolve_left hne
    · intro hp
      exact ⟨fun heq => hq (heq ▸ hp), .inr hp⟩
  have hinsn : ∀ i, (f.setPhiOperands q ops).insn i = f.insn i := fun i => by simp
  have hpreds : ∀ b, (f.setPhiOperands q ops).predecessors b = f.predecessors b := fun b => by
    simp [predecessors]
  have hfront : ∀ i, (f.setPhiOperands q ops).front i = f.front i := fun i => by simp [front]
  have hwritten : ∀ l, written? (f.setPhiOperands q ops) site field l = written? f site field l := by
    intro l
    rw [written?, written?]
    congr 1
    funext i
    exact writtenBy?_congr (hinsn i)
  have hphi : ∀ p, (f.setPhiOperands q ops).phi p =
      if q = p then { f.phi p with operands := ops } else f.phi p := by
    intro p
    rw [phi_setPhiOperands]
    simp only [f.lt_phis_of_live hlive, and_true]
  refine ⟨hflow, ⟨by rw [hinsn, h.stands.op], by rw [hinsn, h.stands.dest]⟩, fun v hv => ?_,
    fun b v hv => ?_, fun b v hv => ?_, fun b v hv => ?_, fun b v hv => ?_⟩
  · obtain ⟨j, hj, hdest, ty, hty, hop⟩ := h.sound.zero v hv
    exact ⟨j, by rwa [hfront], by rw [hinsn, hdest], ty, hty, by rw [hinsn, hop]⟩
  · rw [hpreds]
    refine (h.sound.incoming b v hv).imp_right ?_
    rintro ⟨p, hp, hb, hvalue, hsingle, hfill⟩
    refine ⟨p, ?_, ?_, ?_, hsingle, ?_⟩
    · rw [hphi]
      split <;> exact hp
    · rw [hphi]
      split <;> exact hb
    · rw [hphi]
      split <;> exact hvalue
    · rw [hphi]
      split
      · rename_i heq
        subst heq
        rw [← hb]
        exact .inr hops
      · rename_i hne
        exact hfill.imp_left fun hwait => hwait.resolve_left fun heq => hne heq.symm
  · refine (h.sound.outgoing b v hv).congr_written ?_
    rw [hwritten, block_setPhiOperands]
  · rw [definition_setPhiOperands]
    exact h.sound.incoming_defined b v hv
  · rw [definition_setPhiOperands]
    exact h.sound.outgoing_defined b v hv

end Stage

end Stages

/-! ## Steps of a search -/

/-- A successful step leaves a stage at which more is known, and its answer satisfies `Q` there. -/
def Resolves (site : AllocationSite) (field : FieldRef) {α : Type} (x : Resolving α)
    (Q : Resolver → Function → α → Prop) : Prop :=
  ∀ pending r f a r' f', Stage site field pending r f → (x.run r).run f = .ok (a, r') f' →
    Stage site field pending r' f' ∧ Enlarges f f' ∧ r.Learns r' ∧ Q r' f' a

section Steps

variable {site : AllocationSite} {field : FieldRef} {pending : PhiId → Prop} {r r' : Resolver}
  {f f' : Function} {b : BlockId} {v : ValueId} {x : Resolving α}

lemma ok_of_bind {k : α → Resolving β} {p : β × Resolver}
    (hrun : ((x >>= k).run r).run f = .ok p f') : ∃ a r1 f1, (x.run r).run f = .ok (a, r1) f1 ∧
      ((k a).run r1).run f1 = .ok p f' := by
  obtain ⟨⟨a, r1⟩, f1, hx, hk⟩ := Edit.ok_of_bind hrun
  exact ⟨a, r1, f1, hx, hk⟩

lemma ok_of_lift {x : Edit α} {a : α}
    (hrun : ((liftM x : Resolving α).run r).run f = .ok (a, r') f') :
    x.run f = .ok a f' ∧ r = r' := by
  obtain ⟨a, g, hx, ⟨⟩⟩ := Edit.ok_of_bind hrun
  exact ⟨hx, rfl⟩

lemma ok_of_discard {u : Unit} (hrun : ((discard x).run r).run f = .ok (u, r') f') :
    ∃ a, (x.run r).run f = .ok (a, r') f' := by
  obtain ⟨⟨a, r1⟩, g, hx, ⟨⟩⟩ := Edit.ok_of_bind hrun
  exact ⟨a, hx⟩

lemma insertBefore_ok {anchor j : InsnId} {op : Op} {dest : Option ValueId}
    (hrun : (Ssa.insertBefore anchor op dest).run f = .ok j f') : ∃ n position,
      f.positionInBlock? anchor = some n ∧
      f' = (f.insertInsn (f.insn anchor).block n op dest position).2 := by
  obtain ⟨f0, f1, ⟨⟩, hrun1⟩ := Edit.ok_of_bind hrun
  split at hrun1
  · cases hrun1
  · cases hrun1
    exact ⟨_, _, ‹_›, rfl⟩

lemma fieldKind_ok (hrun : (fieldKind site field).run f = .ok ty f') :
    field.ty.valueType? = some ty ∧ f = f' := by
  unfold fieldKind at hrun
  split at hrun
  · cases hrun
    exact ⟨‹_›, rfl⟩
  · cases hrun

lemma enlarges_zero (hf : f.Flow pending) (hs : site.StandsIn f)
    (position : Ssa.Position) (hn : (f.addValue ty).2.positionInBlock? site.insn = some n) :
    let g := ((f.addValue ty).2.insertInsn (f.insn site.insn).block n (.const (.zero ty))
      (some ⟨f.values.size⟩) position).2
    g.Flow pending ∧ Enlarges f g ∧ ⟨f.insns.size⟩ ∈ g.front site.insn ∧
      (g.insn ⟨f.insns.size⟩).dest = some ⟨f.values.size⟩ ∧
      (g.insn ⟨f.insns.size⟩).op = .const (.zero ty) := by
  intro g
  have hf1 := hf.addValue ty
  obtain ⟨after, hlist⟩ := hf.exact.insns_eq_front (hs.live hf.exact)
  have hlist1 : ((f.addValue ty).2.block (f.insn site.insn).block).insns =
      f.front site.insn ++ site.insn :: after := hlist
  obtain rfl : (f.front site.insn).length = n := by
    rw [hf1.exact.positionInBlock?_eq hlist1] at hn
    exact Option.some.inj hn
  have hb : (f.insn site.insn).block.index < (f.addValue ty).2.blocks.size :=
    lt_blocks_of_mem_insns (i := site.insn) (by simp [hlist1])
  have hdest : ∀ d, some (⟨f.values.size⟩ : ValueId) = some d →
      d.index < (f.addValue ty).2.values.size ∧ ((f.addValue ty).2.value d).definition = none := by
    rintro d ⟨⟩
    rw [value_addValue, if_pos rfl]
    exact ⟨by simp [Ssa.Function.addValue], rfl⟩
  have hg : g.Flow pending := hf1.insertInsn hb rfl hdest
  have hnew : g.insn ⟨f.insns.size⟩ = ⟨.const (.zero ty), some ⟨f.values.size⟩,
      (f.insn site.insn).block, position, false⟩ := by
    rw [insn_insertInsn]
    exact if_pos rfl
  have hlist' : (g.block (f.insn site.insn).block).insns =
      (f.front site.insn ++ [⟨f.insns.size⟩]) ++ site.insn :: after := by
    rw [block_insertInsn, if_pos ⟨rfl, hb⟩]
    simp only [hlist1, take_left, drop_left, append_assoc, singleton_append]
    rfl
  have hbegins : (f.addValue ty).2.BeginsCaught (f.insn site.insn).block →
      (f.front site.insn).length ≠ 0 := by
    rintro ⟨j, rest, guard, hbegin, hop⟩ hzero
    rw [hlist1, eq_nil_of_length_eq_zero hzero, nil_append] at hbegin
    obtain ⟨rfl, -⟩ := cons.inj hbegin
    have hop' : (f.insn site.insn).op = .moveException guard := hop
    rw [hs.op] at hop'
    cases hop'
  have hretains : f.Retains (f.addValue ty).2 :=
    .of_insns rfl (fun i => ⟨id, by rw [Op.mapOperands_id]; rfl⟩) fun _ => ⟨rfl, rfl, rfl, rfl⟩
  refine ⟨hg, ⟨?_, ?_, ?_, ?_, ?_, ?_⟩, ?_, ?_, ?_⟩
  · exact (Extends.addValue hf.exact ty).trans (.insertInsn hf1.exact fun d hd => (hdest d hd).2)
  · exact hretains.trans (.insertInsn _ _ _ rfl hbegins)
  · intro q hq
    rfl
  · intro i hi hlive
    have hlt := g.lt_insns_of_live hlive
    have hsize : g.insns.size = f.insns.size + 1 := size_insns_insertInsn
    obtain rfl : i = ⟨f.insns.size⟩ := InsnId.eq_iff.2 (show i.index = f.insns.size by omega)
    exact ⟨_, by rw [hnew]⟩
  · intro b hgone
    rw [block_insertInsn, if_neg]
    · exact hgone
    · rintro ⟨rfl, -⟩
      rw [hgone] at hlist
      simp [Ssa.Block.gone] at hlist
  · intro b
    by_cases hbs : (f.insn site.insn).block = b
    · rw [← hbs, hlist', hlist]
      simp
    · rw [block_insertInsn, if_neg fun h => hbs h.1]
      rfl
  · rw [hg.exact.front_eq hlist']
    simp
  · rw [hnew]
  · rw [hnew]

lemma zeroOf_cases (hrun : ((zeroOf site field).run r).run f = .ok (v, r') f') :
    (r.zero = some v ∧ r' = r ∧ f' = f) ∨
    ∃ ty n position, r.zero = none ∧ field.ty.valueType? = some ty ∧ v = ⟨f.values.size⟩ ∧
      (f.addValue ty).2.positionInBlock? site.insn = some n ∧ r' = { r with zero := some v } ∧
      f' = ((f.addValue ty).2.insertInsn (f.insn site.insn).block n (.const (.zero ty)) (some v)
        position).2 := by
  obtain ⟨r0, r1, f1, ⟨⟩, hrun1⟩ := ok_of_bind hrun
  cases hzero : r.zero with
  | some w =>
    simp only [hzero] at hrun1
    cases hrun1
    exact .inl ⟨rfl, rfl, rfl⟩
  | none =>
    simp only [hzero] at hrun1
    obtain ⟨ty, r1, f1, hkind, hrun2⟩ := ok_of_bind hrun1
    obtain ⟨hkind', rfl⟩ := ok_of_lift hkind
    obtain ⟨hty, rfl⟩ := fieldKind_ok hkind'
    obtain ⟨w, r2, f2, hvalue, hrun3⟩ := ok_of_bind hrun2
    obtain ⟨⟨⟩, rfl⟩ := ok_of_lift hvalue
    obtain ⟨u, r3, f3, hinsert, hrun4⟩ := ok_of_bind hrun3
    obtain ⟨j, hdiscard⟩ := ok_of_discard hinsert
    obtain ⟨hinsert', rfl⟩ := ok_of_lift hdiscard
    obtain ⟨n, position, hn, rfl⟩ := insertBefore_ok hinsert'
    cases hrun4
    exact .inr ⟨ty, n, position, rfl, hty, rfl, hn, rfl, rfl⟩

lemma resolves_zeroOf : Resolves site field (zeroOf site field) fun r' _ v => r'.zero = some v := by
  intro pending r f v r' f' h hrun
  rcases zeroOf_cases hrun with ⟨hzero, rfl, rfl⟩ | ⟨ty, n, position, hzero, hty, rfl, hn, rfl, rfl⟩
  · exact ⟨h, .refl h.flow.exact, .refl r', hzero⟩
  · obtain ⟨hg, he, hfront, hdest, hop⟩ := enlarges_zero h.flow h.stands position hn
    have hstage := h.enlarges he hg
    refine ⟨⟨hg, hstage.stands, ?_⟩, he, ⟨fun v hv => ?_, fun _ _ h => h, fun _ _ h => h⟩, rfl⟩
    · refine ⟨?_, hstage.sound.incoming, fun b v hv => ?_, hstage.sound.incoming_defined,
        hstage.sound.outgoing_defined⟩
      · rintro v ⟨⟩
        exact ⟨_, hfront, hdest, ty, hty, hop⟩
      · refine (hstage.sound.outgoing b v hv).learns ⟨fun v hv => ?_, fun _ _ h => h, fun _ _ h => h⟩
        rw [hzero] at hv
        cases hv
    · rw [hzero] at hv
      cases hv

lemma resolves_writtenValue (write : LastWrite) :
    Resolves site field (writtenValue site field write) fun r' _ v =>
      match write with
      | .value w => v = w
      | .allocation => r'.zero = some v := by
  cases write with
  | allocation => exact resolves_zeroOf
  | value w =>
    intro pending r f v r' f' h hrun
    cases hrun
    exact ⟨h, .refl h.flow.exact, .refl r, rfl⟩

/-- A search that finds what the field holds at the start of a block. -/
def FindsStart (site : AllocationSite) (field : FieldRef) (atStart : BlockId → Resolving ValueId) : Prop :=
  ∀ b, Resolves site field (atStart b) fun r' _ v => r'.incoming.get? b = some v

lemma resolves_heldBehind
    (hstart : FindsStart site field atStart) (h : Stage site field pending r f)
    (hrun : ((heldBehind site field atStart b n).run r).run f = .ok (v, r') f') :
    Stage site field pending r' f' ∧ Enlarges f f' ∧ r.Learns r' ∧
      r'.Holds f site field b ((f.block b).insns.take n) v := by
  obtain ⟨f0, r0, f1, ⟨⟩, hrun1⟩ := ok_of_bind hrun
  have hlast : lastWrite? f site field b n = written? f site field ((f.block b).insns.take n) := rfl
  rw [hlast] at hrun1
  unfold Resolver.Holds
  cases hwritten : written? f site field ((f.block b).insns.take n) with
  | none =>
    simp only [hwritten] at hrun1
    exact hstart b pending r f v r' f' h hrun1
  | some write =>
    simp only [hwritten] at hrun1
    cases write with
    | value w => exact resolves_writtenValue (.value w) pending r f v r' f' h hrun1
    | allocation => exact resolves_writtenValue .allocation pending r f v r' f' h hrun1

lemma resolves_heldAtEnd (hstart : FindsStart site field atStart) (b : BlockId) :
    Resolves site field (heldAtEnd site field atStart b) fun r' _ v =>
      r'.outgoing.get? b = some v := by
  intro pending r f v r' f' h hrun
  obtain ⟨r0, r1, f1, ⟨⟩, hrun1⟩ := ok_of_bind hrun
  cases hout : r.outgoing.get? b with
  | some w =>
    simp only [hout] at hrun1
    cases hrun1
    exact ⟨h, .refl h.flow.exact, .refl r, hout⟩
  | none =>
    simp only [hout] at hrun1
    obtain ⟨f0, r1, f1, ⟨⟩, hrun2⟩ := ok_of_bind hrun1
    obtain ⟨w, r2, f2, hbehind, ⟨⟩⟩ := ok_of_bind hrun2
    obtain ⟨h2, he, hlearns, hholds⟩ := resolves_heldBehind hstart h hbehind
    rw [take_length] at hholds
    have hholds : r2.Holds f' site field b (f'.block b).insns v := by
      refine .enlarges he (h.stands.lt h.flow.exact)
        (fun i hi => ((h2.flow.exact.insns_iff b i).1 hi).1) ?_
      rwa [he.extended.insns]
    obtain ⟨h3, hnew⟩ := h2.insert_outgoing hholds
    exact ⟨h3, he, hlearns.trans hnew, Assoc.get?_insert_self ..⟩

lemma resolves_mapM {find : BlockId → Resolving ValueId}
    (hfind : ∀ b, Resolves site field (find b) fun r' _ v => r'.outgoing.get? b = some v)
    (bs : List BlockId) :
    Resolves site field (bs.mapM find) fun r' _ vs =>
      List.Forall₂ (fun b v => r'.outgoing.get? b = some v) bs vs := by
  induction bs with
  | nil =>
    intro pending r f vs r' f' h hrun
    cases hrun
    exact ⟨h, .refl h.flow.exact, .refl r, .nil⟩
  | cons b rest ih =>
    intro pending r f vs r' f' h hrun
    rw [mapM_cons] at hrun
    obtain ⟨v, r1, f1, hfirst, hrun1⟩ := ok_of_bind hrun
    obtain ⟨ws, r2, f2, hrest, ⟨⟩⟩ := ok_of_bind hrun1
    obtain ⟨h1, he1, hlearns1, hv⟩ := hfind b pending r f v r1 f1 h hfirst
    obtain ⟨h2, he2, hlearns2, hws⟩ := ih pending r1 f1 ws r' f' h1 hrest
    exact ⟨h2, he1.trans he2, hlearns1.trans hlearns2, .cons (hlearns2.outgoing b v hv) hws⟩

lemma openPhi_ok (hrun : ((openPhi site field b).run r).run f = .ok (q, r') f') : ∃ ty,
      q = ⟨f.phis.size⟩ ∧ f' = (f.insertPhi b ty).2 ∧
      r' = { r with incoming := r.incoming.insert b ⟨f.values.size⟩, phis := r.phis ++ [q] } := by
  obtain ⟨ty, r1, f1, hkind, hrun1⟩ := ok_of_bind hrun
  obtain ⟨hkind', rfl⟩ := ok_of_lift hkind
  obtain ⟨-, rfl⟩ := fieldKind_ok hkind'
  obtain ⟨p, r2, f2, hinsert, hrun2⟩ := ok_of_bind hrun1
  obtain ⟨⟨⟩, rfl⟩ := ok_of_lift hinsert
  cases hrun2
  have hvalue : ((f.insertPhi b ty).2.phi ⟨f.phis.size⟩).value = ⟨f.values.size⟩ := by
    rw [phi_insertPhi, if_pos rfl]
  exact ⟨ty, rfl, rfl, congrArg (fun v => ({ r with
    incoming := r.incoming.insert b v, phis := r.phis ++ [⟨f.phis.size⟩] } : Resolver)) hvalue⟩

/-- Looking the field up at the start of a block records what it finds. -/
theorem resolves_heldAtStart (fuel : Nat) :
    FindsStart site field (heldAtStart site field fuel) := by
  induction fuel with
  | zero =>
    intro b pending r f v r' f' h hrun
    cases hrun
  | succ fuel ih =>
    intro b pending r f v r' f' h hrun
    obtain ⟨r0, r1, f1, ⟨⟩, hrun1⟩ := ok_of_bind hrun
    cases hin : r.incoming.get? b with
    | some w =>
      simp only [hin] at hrun1
      cases hrun1
      exact ⟨h, .refl h.flow.exact, .refl r, hin⟩
    | none =>
      simp only [hin] at hrun1
      obtain ⟨f0, r1, f1, ⟨⟩, hrun2⟩ := ok_of_bind hrun1
      split at hrun2
      · cases hrun2
      · rename_i p hpreds
        obtain ⟨w, r2, f2, hend, ⟨⟩⟩ := ok_of_bind hrun2
        obtain ⟨h2, he, hlearns, hout⟩ := resolves_heldAtEnd ih p pending r f v r2 f' h hend
        have hpreds' : f'.predecessors b = [p] := by rw [he.extended.preds, hpreds]
        obtain ⟨h3, hnew⟩ := h2.insert_incoming hpreds' hout
        exact ⟨h3, he, hlearns.trans hnew, Assoc.get?_insert_self ..⟩
      · rename_i hnil hsingle
        obtain ⟨q, r2, f2, hopen, hrun3⟩ := ok_of_bind hrun2
        obtain ⟨ops, r3, f3, hends, ⟨⟩⟩ := ok_of_bind hrun3
        obtain ⟨ty, rfl, rfl, rfl⟩ := openPhi_ok hopen
        obtain ⟨h2, he2, hlearns2⟩ := h.open_phi ty (r.phis ++ [⟨f.phis.size⟩]) hin hnil hsingle
        obtain ⟨h3, he3, hlearns3, hops⟩ :=
          resolves_mapM (resolves_heldAtEnd ih) (f.predecessors b) _ _ _ _ _ _ h2 hends
        have hnew : ¬pending ⟨f.phis.size⟩ := fun hwait => by
          have := f.lt_phis_of_live (h.flow.waits _ hwait).1
          simp at this
        have hlive := (h2.flow.waits ⟨f.phis.size⟩ (.inl rfl)).1
        have hphi : f3.phi ⟨f.phis.size⟩ = { value := ⟨f.values.size⟩, block := b } := by
          rw [he3.phis _ hlive, phi_insertPhi, if_pos rfl]
        have he := he2.trans he3
        have hstage := h3.fill_phi ops hnew (by rwa [hphi, he.extended.preds])
        refine ⟨hstage, he.setPhiOperands h3.flow.exact le_rfl ops, hlearns2.trans hlearns3, ?_⟩
        have hvalue : ((f3.setPhiOperands ⟨f.phis.size⟩ ops).phi ⟨f.phis.size⟩).value =
            ⟨f.values.size⟩ := by
          rw [phi_setPhiOperands, hphi]
          split <;> rfl
        rw [← hvalue] at hlearns3
        exact hlearns3.incoming b _ (Assoc.get?_insert_self ..)

theorem resolves_heldAtRead (read : InsnId) :
    Resolves site field (heldAtRead site field read) fun r' f' v =>
      f'.LiveInsn read ∧
        r'.Holds f' site field (f'.insn read).block (f'.front read) v := by
  intro pending r f v r' f' h hrun
  obtain ⟨f0, r1, f1, ⟨⟩, hrun1⟩ := ok_of_bind hrun
  split at hrun1
  · cases hrun1
  · rename_i n hn
    have hlive : f.LiveInsn read := by
      by_contra hgone
      simp [positionInBlock?, hgone] at hn
    obtain ⟨after, hlist⟩ := h.flow.exact.insns_eq_front hlive
    obtain rfl : (f.front read).length = n := by
      rw [h.flow.exact.positionInBlock?_eq hlist] at hn
      exact Option.some.inj hn
    obtain ⟨h', he, hlearns, hholds⟩ := resolves_heldBehind (resolves_heldAtStart _) h hrun1
    rw [hlist, take_left] at hholds
    exact ⟨h', he, hlearns, hholds.front he h'.flow.exact (h.stands.lt h.flow.exact) hlive⟩

end Steps

end Dissolve.Inline
