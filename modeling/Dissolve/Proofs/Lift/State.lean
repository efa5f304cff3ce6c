import Dissolve.Proofs.Lift.Ensures
import Dissolve.Proofs.Ssa.Availability

/-!
# Proofs.Lift.State — what holds while a method is lifted

A phi without operands is a *gap*: it waits in an open block, or its operands are being read right
now. `Progress.Sound p gaps` says that apart from its gaps the function under construction is in
order and that every recorded value, once resolved, is defined and available where it is recorded.

`Progress.Starts p gaps b x v` says that `v` is what the variable `x` holds at the start of block `b`:
a phi of the block over what the predecessors hold, which may still be a gap, or what all of them
hold.

`Progress.Later` relates two stages of lifting: values are replaced along `Progress.resolve`, and
whatever was recorded, available or linked is so afterwards.
-/

namespace Dissolve.Lift

open Ssa (Function)

variable {b : BlockId} {v : ValueId} {x : Variable}

/-- A phi that has to get operands, with its block and its variable. -/
structure Gap where
  block : BlockId
  var : Variable
  phi : PhiId
  deriving DecidableEq

namespace Progress

def waitingAt (p : Progress) (b : BlockId) : List (Variable × PhiId) :=
  (p.waiting.get? b).getD []

/-- A phi has no operands yet: it is on the list of gaps or waits in its block. -/
def IsGap (p : Progress) (gaps : List Gap) (b : BlockId) (x : Variable) (q : PhiId) : Prop :=
  ⟨b, x, q⟩ ∈ gaps ∨ (x, q) ∈ p.waitingAt b

/-- A value is defined, and available at the end of what a block has so far. -/
def Usable (p : Progress) (b : BlockId) (v : ValueId) : Prop :=
  (p.func.value v).definition.isSome = true ∧ p.func.AvailEnd v b

/-- What a variable holds at the end of a block, followed to the value that stands for it. -/
def Holds (p : Progress) (b : BlockId) (x : Variable) (v : ValueId) : Prop :=
  ∃ w, p.held.get? (b, x) = some w ∧ p.resolve w = v

/-- The value is a phi of the block over what the predecessors hold. -/
def Joins (p : Progress) (b : BlockId) (x : Variable) (v : ValueId) : Prop :=
  ∃ q, (p.func.value v).definition = some (.phi q) ∧ (p.func.phi q).block = b ∧
    ∀ (j : Nat) (pred : BlockId), (p.func.predecessors b)[j]? = some pred →
      pred ∈ p.done ∧ ∃ u, p.Holds pred x u ∧ (p.func.phi q).operands[j]? = some u

/-- All predecessors hold the value, and it is no phi of the block. -/
def Passes (p : Progress) (b : BlockId) (x : Variable) (v : ValueId) : Prop :=
  ∀ pred ∈ p.func.predecessors b, pred ∈ p.done ∧ p.Holds pred x v ∧ ¬p.func.IsPhiOf v b

/-- What a variable holds at the start of a block. -/
def Starts (p : Progress) (gaps : List Gap) (b : BlockId) (x : Variable) (v : ValueId) : Prop :=
  (∃ q, p.IsGap gaps b x q ∧ (p.func.phi q).value = v) ∨ p.Joins b x v ∨ p.Passes b x v

/-- The function under construction is in order but for its gaps. -/
structure Sound (p : Progress) (gaps : List Gap) : Prop where
  flow : p.func.Flow fun q => ∃ b x, p.IsGap gaps b x q
  gap_block : ∀ b x q, p.IsGap gaps b x q → (p.func.phi q).block = b
  gaps_nodup : (gaps.map Gap.phi).Nodup
  waiting_nodup : ∀ b, ((p.waitingAt b).map Prod.snd).Nodup
  gaps_waiting : ∀ g ∈ gaps, ∀ b x, (x, g.phi) ∉ p.waitingAt b
  live : ∀ b, b.index < p.func.blocks.size → (p.func.block b).removed = false
  reach : ∀ b, b.index < p.func.blocks.size → ∃ t, p.func.Trail (b :: t)
  preds_lt : ∀ b c, c ∈ p.func.predecessors b → c.index < p.func.blocks.size
  grounded : p.replaced.Grounded
  replaced_undefined : ∀ v w, p.replaced.get? v = some w → (p.func.value v).definition = none
  replaced_lt : ∀ v w, p.replaced.get? v = some w → v.index < p.func.values.size
  held_usable : ∀ b x v, p.Holds b x v → p.Usable b v
  waiting_open : ∀ b ∈ p.closed, p.waitingAt b = []
  closed_done : ∀ b ∈ p.closed, ∀ c ∈ p.func.predecessors b, c ∈ p.done

/-- A block that is not lifted yet holds what it starts with. -/
def Honest (p : Progress) (gaps : List Gap) : Prop :=
  ∀ b x v, b ∉ p.done → p.Holds b x v → p.Starts gaps b x v

/-- Nothing leads to the block, so it starts with nothing. -/
def IsRoot (p : Progress) (b : BlockId) : Prop :=
  b ∈ p.closed ∧ p.func.predecessors b = []

/-- A later stage of lifting; `gaps` and `gaps'` are the gaps before and after. -/
structure Later (p p' : Progress) (gaps gaps' : List Gap) : Prop where
  size_blocks : p'.func.blocks.size = p.func.blocks.size
  size_insns : p.func.insns.size ≤ p'.func.insns.size
  size_values : p.func.values.size ≤ p'.func.values.size
  size_phis : p.func.phis.size ≤ p'.func.phis.size
  preds : ∀ b, p'.func.predecessors b = p.func.predecessors b
  handlers : ∀ b, (p'.func.block b).handlers = (p.func.block b).handlers
  insns : ∀ b, (p.func.block b).insns <+: (p'.func.block b).insns
  insn : ∀ i : InsnId, i.index < p.func.insns.size → p'.func.insn i =
    { p.func.insn i with op := (p.func.insn i).op.mapOperands p'.resolve }
  done : ∀ b ∈ p.done, b ∈ p'.done
  closed : ∀ b ∈ p.closed, b ∈ p'.closed
  resolve : ∀ v, p'.resolve (p.resolve v) = p'.resolve v
  defined : ∀ v, (p.func.value v).definition.isSome = true →
    (p'.func.value (p'.resolve v)).definition.isSome = true
  before : ∀ v b l, (p.func.value v).definition.isSome = true → p.func.AvailBefore v b l →
    p'.func.AvailBefore (p'.resolve v) b l
  usable : ∀ b v, p.Usable b v → p'.Usable b (p'.resolve v)
  holds : ∀ b ∈ p.done, ∀ x v, p.Holds b x v → p'.Holds b x (p'.resolve v)
  starts : ∀ b x v, p.Starts gaps b x v → p'.Starts gaps' b x (p'.resolve v)
  passes : ∀ b x v, p.Passes b x v → p'.Passes b x (p'.resolve v)
  holds_new : ∀ b ∈ p.done, ∀ x v, p.held.get? (b, x) = none → p'.Holds b x v →
    p'.Starts gaps' b x v
  unheld : ∀ b ∈ p.done, p.IsRoot b → ∀ x, p.held.get? (b, x) = none → p'.held.get? (b, x) = none
  root_phis : ∀ b, p.IsRoot b → (p.func.block b).phis = [] → (p'.func.block b).phis = []

/-- Values from number `n` on are read only by phis from number `m` on, which define such values. -/
def Fresh (n m : Nat) (f : Function) : Prop :=
  (∀ v s, n ≤ v.index → f.Reads v s → ∃ q, s = .phi q ∧ m ≤ q.index) ∧
    ∀ q, (f.phi q).removed = false → m ≤ q.index → n ≤ (f.phi q).value.index

/-- The parts of the progress that reading a variable does not touch. -/
structure Frame (p p' : Progress) : Prop where
  stack : p'.stack = p.stack
  blockOf : p'.blockOf = p.blockOf
  shapes : p'.shapes = p.shapes
  done : p'.done = p.done
  current : p'.current = p.current
  offset : p'.offset = p.offset
  size_insns : p'.func.insns.size = p.func.insns.size
  insns : ∀ b, (p'.func.block b).insns = (p.func.block b).insns

/-- A later stage that only reading leads to: values that were there before stay, and what is
recorded anew is what the variable holds at the start of the block. -/
structure Read (p p' : Progress) (gaps gaps' : List Gap) : Prop where
  later : Later p p' gaps gaps'
  frame : Frame p p'
  closed : p'.closed = p.closed
  holds : ∀ b x v, p.Holds b x v → p'.Holds b x (p'.resolve v)
  holds_new : ∀ b x v, p.held.get? (b, x) = none → p'.Holds b x v →
    p'.Starts gaps' b x v ∧
      (b ∈ p.closed → (p.func.predecessors b).length = 1 → p'.Passes b x v)
  kept : ∀ v : ValueId, v.index < p.func.values.size → (p.func.value v).definition.isSome = true →
    (p'.func.value v).definition = (p.func.value v).definition
  unheld : ∀ b, p.IsRoot b → ∀ x, p.held.get? (b, x) = none → p'.held.get? (b, x) = none
  fresh : ∀ n m, n ≤ p.func.values.size → m ≤ p.func.phis.size → Fresh n m p.func →
    Fresh n m p'.func

/-! ## Resolved values -/

section Resolve

variable {p : Progress} {gaps : List Gap}

section

variable (h : p.Sound gaps)
include h

lemma resolve_of_defined (hv : (p.func.value v).definition.isSome) : p.resolve v = v := by
  refine Assoc.chase_of_get?_none ?_
  by_contra hc
  obtain ⟨w, hw⟩ := Option.ne_none_iff_exists'.1 hc
  simp [h.replaced_undefined v w hw] at hv

lemma resolve_resolve (v : ValueId) : p.resolve (p.resolve v) = p.resolve v :=
  h.grounded.chase_chase v

lemma resolve_of_reads {s : Site} (hr : p.func.Reads v s) : p.resolve v = v :=
  resolve_of_defined h (h.flow.defined v s hr)

omit h in
lemma Usable.lt (h : p.Usable b v) : p.func.HasValue v := by
  obtain ⟨s, hs⟩ := Option.isSome_iff_exists.1 h.1
  exact p.func.lt_values_of_definition hs

omit h in
lemma Holds.resolved (hs : p.Sound gaps) (h : p.Holds b x v) : p.resolve v = v := by
  obtain ⟨w, -, rfl⟩ := h
  exact resolve_resolve hs w

omit h in
lemma Holds.inj {w : ValueId} (hv : p.Holds b x v) (hw : p.Holds b x w) : v = w := by
  obtain ⟨u, hu, rfl⟩ := hv
  obtain ⟨u', hu', rfl⟩ := hw
  rw [Option.some.inj (hu.symm.trans hu')]

lemma mapOperands_resolve (i : InsnId) :
    (p.func.insn i).op.mapOperands p.resolve = (p.func.insn i).op :=
  Ssa.Op.mapOperands_eq_self fun _ hv => resolve_of_reads h (s := .insn i) hv

lemma definingBlock?_ne_of_preds (hb : p.func.HasBlock b) (hpreds : p.func.predecessors b ≠ [])
    (hv : ∀ c ∈ p.func.predecessors b, p.func.AvailEnd v c) : p.func.definingBlock? v ≠ some b := by
  obtain ⟨t, ht⟩ := h.reach b hb
  obtain ⟨t, ht, hnot⟩ := ht.once
  intro hdef
  cases ht with
  | start => exact hpreds h.flow.entry_preds
  | step walked edge =>
    obtain ⟨c, hc, hdef'⟩ := hv _ edge _ walked
    obtain rfl := Option.some.inj (hdef.symm.trans hdef')
    exact hnot hc

lemma Passes.resolve_self (hv : p.Passes b x v) : p.Passes b x (p.resolve v) := by
  intro pred hpred
  have hres := (hv pred hpred).2.1.resolved h
  rw [hres]
  exact hv pred hpred

lemma Joins.resolve_self (hv : p.Joins b x v) : p.Joins b x (p.resolve v) := by
  have hdef : (p.func.value v).definition.isSome := by
    obtain ⟨q, hq, -⟩ := hv
    rw [hq]
    rfl
  rwa [resolve_of_defined h hdef]

lemma Starts.resolve_self (hv : p.Starts gaps b x v) : p.Starts gaps b x (p.resolve v) := by
  rcases hv with ⟨q, hq, rfl⟩ | hjoins | hpasses
  · have hdef := (h.flow.exact.definition_iff (p.func.phi q).value (.phi q)).2
      ⟨(h.flow.waits q ⟨b, x, hq⟩).1, rfl⟩
    rw [resolve_of_defined h (by rw [hdef]; rfl)]
    exact .inl ⟨q, hq, rfl⟩
  · exact .inr (.inl (hjoins.resolve_self h))
  · exact .inr (.inr (hpasses.resolve_self h))

end

end Resolve

/-! ## Composing stages -/

namespace Later

variable {p p' p'' : Progress} {gaps gaps' gaps'' : List Gap}

lemma refl (h : p.Sound gaps) : Later p p gaps gaps where
  size_blocks := rfl
  size_insns := le_rfl
  size_values := le_rfl
  size_phis := le_rfl
  preds _ := rfl
  handlers _ := rfl
  insns _ := List.prefix_refl _
  insn i _ := by rw [mapOperands_resolve h]
  done _ hb := hb
  closed _ hb := hb
  resolve v := resolve_resolve h v
  defined v hv := by rwa [resolve_of_defined h hv]
  before v b l hv hav := by rwa [resolve_of_defined h hv]
  usable b v hv := by
    rw [resolve_of_defined h hv.1]
    exact hv
  holds b _ x v hv := by
    rw [hv.resolved h]
    exact hv
  starts b x v hv := hv.resolve_self h
  passes b x v hv := hv.resolve_self h
  holds_new b _ x v hnone hv := by
    obtain ⟨w, hw, -⟩ := hv
    simp [hnone] at hw
  unheld _ _ _ _ hnone := hnone
  root_phis _ _ hphis := hphis

section

variable (h : Later p p' gaps gaps')
include h

lemma isRoot (hb : p.IsRoot b) : p'.IsRoot b :=
  ⟨h.closed b hb.1, (h.preds b).trans hb.2⟩

lemma trans (h' : Later p' p'' gaps' gaps'') : Later p p'' gaps gaps'' where
  size_blocks := h'.size_blocks.trans h.size_blocks
  size_insns := h.size_insns.trans h'.size_insns
  size_values := h.size_values.trans h'.size_values
  size_phis := h.size_phis.trans h'.size_phis
  preds b := (h'.preds b).trans (h.preds b)
  handlers b := (h'.handlers b).trans (h.handlers b)
  insns b := (h.insns b).trans (h'.insns b)
  insn i hi := by
    have hcomp : p''.resolve ∘ p'.resolve = p''.resolve := funext h'.resolve
    rw [h'.insn i (hi.trans_le h.size_insns), h.insn i hi]
    simp only [Ssa.Op.mapOperands_mapOperands, hcomp]
  done b hb := h'.done b (h.done b hb)
  closed b hb := h'.closed b (h.closed b hb)
  resolve v := by rw [← h'.resolve (p.resolve v), h.resolve, h'.resolve]
  defined v hv := by
    rw [← h'.resolve]
    exact h'.defined _ (h.defined v hv)
  before v b l hv hav := by
    rw [← h'.resolve]
    exact h'.before _ b l (h.defined v hv) (h.before v b l hv hav)
  usable b v hv := by
    rw [← h'.resolve]
    exact h'.usable b _ (h.usable b v hv)
  holds b hb x v hv := by
    rw [← h'.resolve]
    exact h'.holds b (h.done b hb) x _ (h.holds b hb x v hv)
  starts b x v hv := by
    rw [← h'.resolve]
    exact h'.starts b x _ (h.starts b x v hv)
  passes b x v hv := by
    rw [← h'.resolve]
    exact h'.passes b x _ (h.passes b x v hv)
  holds_new b hb x v hnone hv := by
    cases hmid : p'.held.get? (b, x) with
    | none => exact h'.holds_new b (h.done b hb) x v hmid hv
    | some w =>
      have hw : p'.Holds b x (p'.resolve w) := ⟨w, hmid, rfl⟩
      rw [hv.inj (h'.holds b (h.done b hb) x _ hw)]
      exact h'.starts b x _ (h.holds_new b hb x _ hnone hw)
  unheld b hb hroot x hnone :=
    h'.unheld b (h.done b hb) (h.isRoot hroot) x (h.unheld b hb hroot x hnone)
  root_phis b hroot hphis := h'.root_phis b (h.isRoot hroot) (h.root_phis b hroot hphis)

lemma holds_of_held_eq (hheld : p'.held = p.held)
    (hv : p.Holds b x v) : p'.Holds b x (p'.resolve v) := by
  obtain ⟨w, hw, rfl⟩ := hv
  exact ⟨w, by rw [hheld, hw], (h.resolve w).symm⟩

lemma honest_of_held_eq (hheld : p'.held = p.held) (hp : p.Honest gaps) : p'.Honest gaps' := by
  rintro b x v hb ⟨w, hw, rfl⟩
  rw [hheld] at hw
  have hstarts := hp b x _ (fun hc => hb (h.done b hc)) ⟨w, hw, rfl⟩
  have hstarts' := h.starts b x _ hstarts
  rwa [h.resolve] at hstarts'

end

end Later

namespace Frame

variable {p p' p'' : Progress}

lemma refl (p : Progress) : Frame p p :=
  ⟨rfl, rfl, rfl, rfl, rfl, rfl, rfl, fun _ => rfl⟩

lemma trans (h : Frame p p') (h' : Frame p' p'') : Frame p p'' :=
  ⟨h'.stack.trans h.stack, h'.blockOf.trans h.blockOf, h'.shapes.trans h.shapes,
    h'.done.trans h.done, h'.current.trans h.current, h'.offset.trans h.offset,
    h'.size_insns.trans h.size_insns, fun b => (h'.insns b).trans (h.insns b)⟩

end Frame

namespace Read

variable {p p' p'' : Progress} {gaps gaps' gaps'' : List Gap}

lemma refl (h : p.Sound gaps) : Read p p gaps gaps where
  later := Later.refl h
  frame := Frame.refl p
  closed := rfl
  holds b x v hv := by
    rw [hv.resolved h]
    exact hv
  holds_new b x v hnone hv := by
    obtain ⟨w, hw, -⟩ := hv
    simp [hnone] at hw
  unheld _ _ _ hnone := hnone
  kept _ _ _ := rfl
  fresh _ _ _ _ hf := hf

lemma of_held_eq (hlater : Later p p' gaps gaps') (hframe : Frame p p')
    (hclosed : p'.closed = p.closed) (hheld : p'.held = p.held) (hkept : ∀ v, p.func.HasValue v →
      (p.func.value v).definition.isSome →
        (p'.func.value v).definition = (p.func.value v).definition)
    (hfresh : ∀ n m, n ≤ p.func.values.size → m ≤ p.func.phis.size → Fresh n m p.func →
      Fresh n m p'.func) : Read p p' gaps gaps' where
  later := hlater
  frame := hframe
  closed := hclosed
  holds b x v hv := hlater.holds_of_held_eq hheld hv
  holds_new b x v hnone hv := by
    obtain ⟨w, hw, -⟩ := hv
    simp [hheld, hnone] at hw
  unheld b _ x hnone := by rw [hheld, hnone]
  kept := hkept
  fresh := hfresh

lemma trans (h : Read p p' gaps gaps') (h' : Read p' p'' gaps' gaps'') :
    Read p p'' gaps gaps'' where
  later := h.later.trans h'.later
  frame := h.frame.trans h'.frame
  closed := h'.closed.trans h.closed
  holds b x v hv := by
    rw [← h'.later.resolve]
    exact h'.holds b x _ (h.holds b x v hv)
  holds_new b x v hnone hv := by
    cases hmid : p'.held.get? (b, x) with
    | none =>
      obtain ⟨hstarts, hpasses⟩ := h'.holds_new b x v hmid hv
      refine ⟨hstarts, fun hb hlen => hpasses (h.later.closed b hb) ?_⟩
      rwa [h.later.preds]
    | some w =>
      have hw : p'.Holds b x (p'.resolve w) := ⟨w, hmid, rfl⟩
      rw [hv.inj (h'.holds b x _ hw)]
      obtain ⟨hstarts, hpasses⟩ := h.holds_new b x _ hnone hw
      exact ⟨h'.later.starts b x _ hstarts, fun hb hlen => h'.later.passes b x _ (hpasses hb hlen)⟩
  unheld b hroot x hnone := h'.unheld b (h.later.isRoot hroot) x (h.unheld b hroot x hnone)
  kept v hlt hv := by
    have hkept := h.kept v hlt hv
    exact (h'.kept v (hlt.trans_le h.later.size_values) (by rwa [hkept])).trans hkept
  fresh n m hn hm hf :=
    h'.fresh n m (hn.trans h.later.size_values) (hm.trans h.later.size_phis) (h.fresh n m hn hm hf)

lemma honest (h : Read p p' gaps gaps') (hp : p.Honest gaps) : p'.Honest gaps' := by
  intro b x v hb hv
  cases hheld : p.held.get? (b, x) with
  | none => exact (h.holds_new b x v hheld hv).1
  | some w =>
    have hw : p.Holds b x (p.resolve w) := ⟨w, hheld, rfl⟩
    rw [hv.inj (h.holds b x _ hw)]
    exact h.later.starts b x _ (hp b x _ (fun hc => hb (h.later.done b hc)) hw)

lemma resolve_kept (h : Read p p' gaps gaps') (hs : p'.Sound gaps')
    (hv : p.Usable b v) : p'.resolve v = v :=
  resolve_of_defined hs (by rw [h.kept v hv.lt hv.1]; exact hv.1)

end Read

end Progress

end Dissolve.Lift
