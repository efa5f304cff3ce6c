import Dissolve.Proofs.Lift.Traversal
import Dissolve.Proofs.Semantics.Cleanup

/-!
# Proofs.Lift.Behaviour — lifted functions behave as the code they were lifted from

The stack machine and the lifted function are in a simulation: inside a range the frame of the machine
is what the simulated stack describes in the environment of the function (`Core`). Where control goes
to another range, the function takes the edge to its block, and the phis there take up what the
variables hold.

Main statement: code without handlers whose kinds of slots agree on all ways shows the same as the
function that it is lifted to (`lift_shows_iff`).
-/

namespace Dissolve.Lift

open List Option
open Code (Instruction)
open Machine (Ending KindsAgree SlotsAgree)
open Progress
open Semantics (Answer Glides Meets Move Question Shows Simulation assign follow merged)
open Ssa (Function Op)

variable {n j : Nat}

/-! ## Finished functions -/

/-- The block of range `k` and how it fits the blocks around it. -/
structure Placed (s : Subject) (layout : Layout) (p : Progress) (k : Nat) (b : BlockId) (r : Range)
    (S : Variable → Option ValueId) (stack : Nat → OperandStack) (before : Nat → List InsnId)
    (stop : Nat) (final : OperandStack) : Prop
    extends Course s layout p k b r S stack before stop final where
  enters : ∃ (st : OperandStack) (shape : List ValueType), p.shapes.get? k = some shape ∧
    stack r.start = st.enterBlock shape
  fresh : p.func.predecessors b ≠ [] → before r.start = []
  passes : ∀ j ∈ layout.normal k, p.shapes.get? j = some (final.bottomUp.map Slot.ty)

/-- All ranges of code without handlers are lifted. -/
structure Finished (s : Subject) (layout : Layout) (order : List Nat) (p : Progress) : Prop where
  lays : layout.Lays s.body.instructions
  wellFormed : p.func.WellFormed
  no_gap : ∀ c x q, ¬p.IsGap [] c x q
  handlers : ∀ b, (p.func.block b).handlers = []
  closed : ∀ k ∈ order, ∀ j ∈ layout.normal k, j ∈ order
  placed : ∀ k ∈ order, ∃ b r S stack before stop final, p.blockOf.get? k = some b ∧
    Placed s layout p k b r S stack before stop final

section Relation

variable {D : Type} (s : Subject) (layout : Layout) (order : List Nat) (p : Progress)
  (params : List D)

/-- The machine is inside a range, and the function at the corresponding place of its block. -/
inductive Core : Machine.State D → Semantics.State D → Prop
  | running {k : Nat} {b : BlockId} {r : Range} {S : Variable → Option ValueId}
      {stack : Nat → OperandStack} {before : Nat → List InsnId} {stop : Nat} {final : OperandStack}
      {o : Nat} {frame : Machine.Frame D} {rest : List InsnId} {start : Variable → D}
      {env : ValueId → D} (member : k ∈ order)
      (placed : Placed s layout p k b r S stack before stop final) (lo : r.start ≤ o)
      (hi : o ≤ stop) (inside : o < r.stop) (agree : Agree p.resolve S start env)
      (shows : frame = (stack o).frame p.resolve start env)
      (here : (p.func.block b).insns = before o ++ rest) :
      Core (.running o frame) (.running b rest env)
  | ended (ending : Ending D) : Core (.ended ending) (.ended ending)

/-- The function comes to the corresponding place by silent steps. -/
def Related (t : Machine.State D) (u : Semantics.State D) : Prop :=
  ∃ n u', Glides (Semantics.next p.func params) n u u' ∧ Core s layout order p t u'

def remaining : Machine.State D → Nat
  | .running o _ => s.body.instructions.length - o
  | .ended _ => 0

end Relation

/-! ## Entering a block -/

section Enter

variable {D : Type} {s : Subject} {layout : Layout} {order : List Nat} {p : Progress}
  {params : List D} {o : Nat}

def contentsAt (frame : Machine.Frame D) (other : Variable → D) : Variable → D
  | .slot i => frame.cells i
  | .stackPlace i => (frame.stack.reverse[i]?).elim (other (.stackPlace i)) Prod.fst

lemma frame_enterBlock (st : OperandStack) (frame : Machine.Frame D) (other : Variable → D)
    (R : ValueId → ValueId) (env : ValueId → D) :
    (st.enterBlock (frame.stack.map Prod.snd).reverse).frame R (contentsAt frame other) env =
      frame := by
  have hstack : ((st.enterBlock (frame.stack.map Prod.snd).reverse).frame R
      (contentsAt frame other) env).stack.reverse = frame.stack.reverse := by
    have hmap : ((st.enterBlock (frame.stack.map Prod.snd).reverse).frame R
        (contentsAt frame other) env).stack.reverse =
        (st.enterBlock (frame.stack.map Prod.snd).reverse).bottomUp.map fun slot =>
          ((st.enterBlock (frame.stack.map Prod.snd).reverse).content R
            (contentsAt frame other) env slot.source, slot.ty) := by
      simp only [OperandStack.frame, OperandStack.bottomUp, map_reverse]
    rw [hmap, OperandStack.bottomUp_enterBlock]
    refine ext_getElem? fun i => ?_
    rw [getElem?_map, getElem?_mapIdx, ← map_reverse, getElem?_map]
    cases hget : frame.stack.reverse[i]? with
    | none => rfl
    | some entry => simp [OperandStack.content, contentsAt, hget]
  obtain ⟨stack, cells⟩ := frame
  exact congrArg₂ Machine.Frame.mk (reverse_injective hstack) rfl

/-- Along an edge the function comes to the block of the range that the machine goes to. -/
lemma Finished.enter (h : Finished s layout order p) {b c : BlockId} {env : ValueId → D}
    {frame : Machine.Frame D} (hj : j ∈ order) (hc : p.blockOf.get? j = some c)
    (hedge : (p.func.successors b)[n]? = some c)
    (hshape : p.shapes.get? j = some (frame.stack.map Prod.snd).reverse)
    (henters : layout.Enters s.body.instructions j o)
    (hcells : ∀ i u, p.Holds b (.slot i) u → frame.cells i = env u)
    (hplaces : ∀ i u d, frame.stack.reverse[i]? = some d → p.Holds b (.stackPlace i) u →
      d.1 = env u) : Core s layout order p (.running o frame) (follow p.func b n env) := by
  have hf := h.wellFormed.exact
  obtain ⟨c', r, S, stack, before, stop, final, hc', hplaced⟩ := h.placed j hj
  obtain rfl := some.inj (hc.symm.trans hc')
  rcases Semantics.follow_cases h.wellFormed b n env with ⟨-, hle⟩ |
    ⟨c', slot, hsucc, -, hslot, hfollow⟩
  · rw [getElem?_eq_none hle] at hedge
    cases hedge
  obtain rfl := some.inj (hedge.symm.trans hsucc)
  have hmem : b ∈ p.func.predecessors c := mem_of_getElem? hslot
  obtain ⟨st, shape, hshape', hstack⟩ := hplaced.enters
  obtain rfl := some.inj (hshape'.symm.trans hshape)
  obtain ⟨r', hr', hlo, hhi, hlabels⟩ := henters
  obtain rfl := some.inj (hplaced.range.symm.trans hr')
  have hos : o ≤ stop := by
    have := hplaced.stop_eq
    split at this <;> omega
  rw [hfollow]
  set env' := merged p.func c slot env with henv'
  -- the phis of the block take up what the variables hold
  have hmerged : ∀ x w, S x = some w → ∀ d, (∀ u, p.Holds b x u → d = env u) →
      d = env' (p.resolve w) := by
    intro x w hw d hd
    rcases hplaced.starts x w hw with ⟨q, hq, -⟩ | ⟨q, hq, hblock, hall⟩ | hpasses
    · exact absurd hq (h.no_gap c x q)
    · obtain ⟨-, u, hu, hop⟩ := hall slot b hslot
      obtain ⟨hlive, hvalue⟩ := (hf.definition_iff _ (.phi q)).1 hq
      rw [henv', ← hvalue, Semantics.merged_phi hf hlive hblock hop]
      exact hd u hu
    · obtain ⟨-, hu, hphi⟩ := hpasses b hmem
      rw [henv', Semantics.merged_of_not_isPhiOf hf hphi]
      exact hd _ hu
  set start := contentsAt frame fun x => (S x).elim (frame.cells 0) fun w => env' (p.resolve w)
    with hstart
  have hag : Agree p.resolve S start env' := by
    intro x w hw
    cases x with
    | slot i => exact hmerged _ w hw _ (hcells i)
    | stackPlace i =>
      cases hget : frame.stack.reverse[i]? with
      | some d =>
        rw [show start (.stackPlace i) = d.1 by simp [hstart, contentsAt, hget]]
        exact hmerged _ w hw _ fun u hu => hplaces i u d hget hu
      | none => simp [hstart, contentsAt, hget, hw]
  obtain ⟨hbefore, hframe⟩ := hplaced.skip_labels hlo hos hlabels hag
  refine .running hj hplaced hlo hos hhi hag ?_ ?_
  · rw [hframe, hstack, frame_enterBlock]
  · rw [hbefore, hplaced.fresh (ne_nil_of_mem hmem), nil_append]

variable {k : Nat} {b : BlockId} {r : Range} {S : Variable → Option ValueId}
  {stack : Nat → OperandStack} {before : Nat → List InsnId} {stop : Nat} {final : OperandStack}
  {start : Variable → D} {env : ValueId → D}

section

variable (h : Finished s layout order p) (hk : k ∈ order)
  (hplaced : Placed s layout p k b r S stack before stop final)
include h hk hplaced

lemma Finished.leave (hag : Agree p.resolve S start env) {i : InsnId}
    (hinsns : (p.func.block b).insns = before stop ++ [i]) (hterm : (p.func.insn i).op.isTerminator)
    (hblocks : p.BlocksOf (layout.normal k) (p.func.insn i).op.targets)
    (hedge : (layout.normal k)[n]? = some j) (henters : layout.Enters s.body.instructions j o) :
    Core s layout order p (.running o (final.frame p.resolve start env))
      (follow p.func b n env) := by
  have hj : j ∈ layout.normal k := mem_of_getElem? hedge
  obtain ⟨c, hc, htarget⟩ : ∃ c, p.blockOf.get? j = some c ∧
      (p.func.insn i).op.targets[n]? = some c := by
    have hget := congrArg (·[n]?) hblocks
    simp only [getElem?_map, hedge, map_some] at hget
    obtain ⟨c, hc, hsome⟩ := map_eq_some_iff.1 hget.symm
    exact ⟨c, hsome.symm, hc⟩
  have hsucc : p.func.successors b = (p.func.insn i).op.targets := by
    rw [successors_of_terminated hinsns hterm, h.handlers b, map_nil, append_nil]
  refine h.enter (h.closed k hk j hj) hc (by rw [hsucc, htarget]) ?_ henters ?_ ?_
  · rw [hplaced.passes j hj, kinds_frame]
  · exact hplaced.cells D start env hag
  · intro i u d hd hu
    have hslot : (final.frame p.resolve start env).stack.reverse[i]? =
        (final.bottomUp[i]?).map fun slot =>
          (final.content p.resolve start env slot.source, slot.ty) := by
      rw [OperandStack.frame, OperandStack.bottomUp, ← map_reverse, getElem?_map]
    obtain ⟨slot, hslot', rfl⟩ := map_eq_some_iff.1 (hslot.symm.trans hd)
    exact hplaced.places D start env hag i slot u hslot' hu

/-- Behind the last instruction of a range that does not end itself the function jumps on. -/
lemma Finished.settle {rest : List InsnId} (hlo : r.start ≤ o) (hos : o ≤ stop)
    (hag : Agree p.resolve S start env) (hhere : (p.func.block b).insns = before o ++ rest) :
    Related s layout order p params (.running o ((stack o).frame p.resolve start env))
      (.running b rest env) := by
  by_cases hinside : o < r.stop
  · exact ⟨0, _, .refl _, .running hk hplaced hlo hos hinside hag rfl hhere⟩
  · have hends : (Layout.lastInsn s.body.instructions r).endsBlock = false := by
      by_contra hends
      have := hplaced.stop_eq
      rw [if_pos (by simpa using hends)] at this
      omega
    obtain ⟨heq, i, hinsns, hterm, hblocks, hrole, hedge, henters, hframe⟩ :=
      hplaced.fall h.lays hends hag
    obtain rfl : o = stop := by omega
    obtain rfl : rest = [i] := append_cancel_left (hhere.symm.trans hinsns)
    rw [hframe]
    exact ⟨1, _, .single (Semantics.next_of_jump hrole),
      h.leave hk hplaced hag hinsns hterm hblocks hedge (heq ▸ henters)⟩

end

end Enter

/-! ## The simulation -/

section Simulation

variable {D : Type} {s : Subject} {layout : Layout} {order : List Nat} {p : Progress}
  {params : List D} {t : Machine.State D} {u : Semantics.State D}

lemma Related.ended (ending : Ending D) :
    Related s layout order p params (.ended ending) (.ended ending) :=
  ⟨0, _, .refl _, .ended ending⟩

/-- Every move of the machine is met by the function. -/
lemma Finished.meets (h : Finished s layout order p) (hcore : Core s layout order p t u) :
    Meets (Semantics.next p.func params) (Related s layout order p params) (remaining s)
      (remaining s t) u (Machine.next s.body.instructions t) := by
  cases hcore with
  | ended ending => exact .halt (.refl _) rfl
  | @running k b r S stack before stop final o frame rest start env member placed lo hi inside agree
      shows here =>
      subst shows
      have hraise : ∀ e n, Semantics.hand p.func b e n env = .ended (.thrown e) := by
        intro e n
        simp [Semantics.hand, h.handlers b]
      have hlength := (h.lays.bounds placed.range).2
      rcases Nat.lt_or_ge o stop with hlt | hge
      · rcases placed.next_step h.lays lo hlt agree with ⟨hbefore, hnext⟩ |
          ⟨i, answer, hbefore, hrole, hterm, hnext, hchoice, hthrow, hvalue⟩
        · rw [hnext]
          refine .silent (.refl _) (h.settle member placed (by omega) hlt agree ?_) fun _ => ?_
          · rw [hbefore, here]
          · simp only [remaining]
            omega
        · obtain ⟨rest', hrest'⟩ := placed.before_split (o := o + 1) (by omega) hlt
          obtain rfl : rest = i :: rest' := by
            rw [hbefore, append_assoc, here] at hrest'
            exact (append_cancel_left hrest').symm
          rw [hnext]
          refine .ask (.refl _) (Semantics.next_of_ask hrole) fun a => ?_
          cases a with
          | value d =>
            rw [(hvalue d).1]
            simp only [Semantics.resume, hterm, Bool.false_eq_true, if_false]
            exact h.settle member placed (by omega) hlt (hvalue d).2 hrest'.symm
          | choice n =>
            have hnone : (p.func.insn i).op.targets = [] := Op.targets_of_not_terminator hterm
            rw [hchoice n]
            simp only [Semantics.resume, hnone, length_nil, Nat.not_lt_zero, if_false]
            exact .ended _
          | raise e n =>
            rw [hthrow e n]
            simp only [Semantics.resume, hraise]
            exact .ended _
      · obtain rfl : o = stop := by omega
        have hends : (Layout.lastInsn s.body.instructions r).endsBlock := by
          by_contra hends
          have := placed.stop_eq
          rw [if_neg hends] at this
          omega
        obtain ⟨i, hinsns, hterm, hblocks, hexit⟩ := placed.exit h.lays hends agree
        obtain rfl : rest = [i] := append_cancel_left (here.symm.trans hinsns)
        have hedges : ∀ {n j o}, (layout.normal k)[n]? = some j →
            layout.Enters s.body.instructions j o → Related s layout order p params
              (.running o (final.frame p.resolve start env)) (follow p.func b n env) :=
          fun hedge henters => ⟨0, _, .refl _,
            h.leave member placed agree hinsns hterm hblocks hedge henters⟩
        generalize Machine.next s.body.instructions _ = move at hexit
        cases hexit with
        | jump role edge enters =>
          exact .silent (.single (Semantics.next_of_jump role)) (hedges edge enters)
            fun hn => absurd hn (by omega)
        | ret role => exact .halt (.refl _) (by simp only [Semantics.next, role])
        | throw role operands =>
          refine .halt (.refl _) ?_
          simp only [Semantics.next, role, operands, Semantics.throwing, h.handlers b, if_true]
        | choose role value raise choice =>
          refine .ask (.refl _) (Semantics.next_of_ask role) fun a => ?_
          cases a with
          | value d =>
            rw [value d]
            simp only [Semantics.resume, hterm, if_true]
            exact .ended _
          | raise e n =>
            rw [raise e n]
            simp only [Semantics.resume, hraise]
            exact .ended _
          | choice n =>
            have hlen := congrArg length hblocks
            rw [length_map, length_map] at hlen
            simp only [Semantics.resume]
            rcases choice n with ⟨hle, hanswer⟩ | ⟨j, o', hedge, henters, hanswer⟩
            · rw [hanswer, if_neg (by omega)]
              exact .ended _
            · have hlt := (List.getElem?_eq_some_iff.1 hedge).1
              rw [hanswer, if_pos (by omega)]
              exact hedges hedge henters

lemma Finished.simulation (h : Finished s layout order p) :
    Simulation (Machine.next s.body.instructions) (Semantics.next p.func params)
      (Related s layout order p params) (remaining s) := by
  refine .of_meets ?_
  rintro t u ⟨n, u', hglides, hcore⟩
  exact hglides.meets (h.meets hcore)

end Simulation

/-! ## Parameters -/

def Subject.arguments {D : Type} (s : Subject) (cells : Nat → D) : List D :=
  (parameterSlots 0 s.parameterKinds).map cells

section Parameters

variable {D : Type} {p q : Progress} {params : List D} {cells : Nat → D} {b : BlockId}

/-- The first instructions of the entry block give the parameters to their values. -/
lemma Params.glides {index slot : Nat} {kinds : List ValueType} {is : List InsnId}
    (h : Params q index slot kinds is) (hlater : Later q p [] []) (hq : q.Sound [])
    (hs : p.Sound []) (hnodup : is.Nodup)
    (hparams : params.drop index = (parameterSlots slot kinds).map cells) (rest : List InsnId)
    (env : ValueId → D) :
    ∃ n env', Glides (Semantics.next p.func params) n (.running b (is ++ rest) env)
        (.running b rest env') ∧
      (∀ i ∈ parameterSlots slot kinds, ∃ v, q.held.get? (q.func.entry, .slot i) = some v ∧
        p.resolve v = v ∧ env' v = cells i) ∧
      ∀ v, (∀ j ∈ is, (q.func.insn j).dest ≠ some v) → env' v = env v := by
  induction h generalizing env with
  | nil => exact ⟨0, env, .refl _, by simp [parameterSlots], fun _ _ => rfl⟩
  | @cons index slot ty kinds i v is op dest held more ih =>
    obtain ⟨hnot, hnodup⟩ := nodup_cons.1 hnodup
    have hparam : params[index]? = some (cells slot) := by
      rw [← head?_drop, hparams]
      rfl
    have htail : params.drop (index + 1) = (parameterSlots (slot + ty.slots) kinds).map cells := by
      rw [← tail_drop, hparams]
      rfl
    obtain ⟨n, env', hglides, hheld, hkept⟩ := ih hnodup htail (assign env (some v) (cells slot))
    have hinsn := hlater.insn i (q.func.lt_insns_of_live (hq.flow.exact.live_of_dest dest))
    have hop : (p.func.insn i).op = .argument index := by
      rw [hinsn]
      rw [op]
      rfl
    have hdest : (p.func.insn i).dest = some v := by rw [hinsn, dest]
    have hdef := (hs.flow.exact.definition_iff v (.insn i)).2 hdest
    have hnext : Semantics.next p.func params (.running b (i :: (is ++ rest)) env) =
        .silent (.running b (is ++ rest) (assign env (some v) (cells slot))) := by
      simp only [Semantics.next, hop, Op.role, Semantics.bindParam, hdest, hparam]
    -- no other parameter is given to this value
    have hv : env' v = cells slot := by
      rw [hkept v, assign, Function.update_self]
      intro j hj hj'
      obtain rfl : j = i := hq.flow.exact.insn_unique hj' dest
      exact hnot hj
    refine ⟨n + 1, env', .step hnext hglides, ?_, ?_⟩
    · intro j hj
      rcases mem_cons.1 hj with rfl | hj
      · exact ⟨v, held, resolve_of_defined hs (by rw [hdef]; rfl), hv⟩
      · exact hheld j hj
    · intro w hw
      rw [hkept w fun j hj => hw j (mem_cons_of_mem i hj)]
      refine assign_of_ne _ ?_
      rintro v' hv' rfl
      exact hw i mem_cons_self (dest.trans hv')

end Parameters

/-! ## Lifted functions -/

lemma Layout.isHandler_of_build {method : MethodRef} {body : Code.Body} {layout : Layout}
    (h : Layout.build method body = .ok layout) (hhandlers : body.handlers = []) (k : Nat) :
    layout.isHandler k = false := by
  obtain ⟨-, -, table, -, starts, htable, -, -, -, hguards⟩ := Layout.build_parts h
  rw [hhandlers] at htable
  obtain rfl : table = [] := by cases htable; rfl
  rw [Layout.isHandler, hguards]
  rfl

section Lifted

variable {s : Subject} {layout : Layout} {order : List Nat} {separate : Bool}
  {p1 q start p : Progress} {k : Nat} {b : BlockId}

lemma Lifted.enters {first last : Progress} (h : Lifted s layout k p q first last b)
    (hplain : layout.isHandler k = false) : ∃ (st : OperandStack) (shape : List ValueType),
      p.shapes.get? k = some shape ∧ first.stack = st.enterBlock shape := by
  obtain ⟨r, q', -, hcrossed, -, -⟩ := h.crossed
  obtain ⟨-, shape, hshape, hstack, -⟩ := hcrossed.entered.plain hplain
  exact ⟨_, shape, h.shape shape hshape, hstack⟩

section

variable (h : Going s layout order separate start order p)
include h

section

variable (hlays : layout.Lays s.body.instructions)
include hlays

lemma Going.placed (hcatch : layout.Handles s.body)
    (horder : Ordered layout order) (hview : s.view = .identity) (hagree : KindsAgree s.body)
    (hempty : ∀ c, c ≠ p.func.entry → (start.func.block c).insns = []) (hk : k ∈ order)
    (hplain : layout.isHandler k = false) (hb : p.blockOf.get? k = some b) :
    ∃ r S stack before stop final, Placed s layout p k b r S stack before stop final ∧
      before r.start = (start.func.block b).insns ∧
      (p.func.predecessors b = [] → order.head? = some k → ∀ x w, S x = some w →
        ∃ v, start.held.get? (b, x) = some v ∧ p.resolve w = p.resolve v) := by
  have hgap := h.no_gap horder
  obtain ⟨q, first, last, hlifted, hfirst, hinsns⟩ := h.lifted k hk b hb
  obtain ⟨r, S, stack, before, stop, hcourse, hstack, hbefore, hroot⟩ :=
    hlifted.course hlays hview h.sound hgap
  obtain ⟨st, shape, hshape, henter⟩ := hlifted.enters hplain
  replace hbefore := hbefore hplain
  refine ⟨r, S, stack, before, stop, last.stack,
    ⟨hcourse, ⟨st, shape, hshape, hstack.trans henter⟩, ?_, ?_⟩, hbefore.trans hinsns, ?_⟩
  · intro hpreds
    rw [hbefore, hinsns]
    refine hempty b ?_
    rintro rfl
    exact hpreds h.sound.flow.entry_preds
  · intro j hj
    obtain ⟨sh, hsh, hlen⟩ := hlifted.length j hj
    have harrives := (h.shaped j sh hsh).arrives hlays hcatch hview h.sound hgap
    have harrives' := (Shaped.next (h.shaped k shape hshape) hlifted ⟨st, henter⟩ hj).arrives hlays
      hcatch hview h.sound hgap
    rw [hsh, harrives.unique hagree harrives' (by simp [hlen, OperandStack.bottomUp])]
  · intro hpreds hhead x w hw
    rw [← hfirst hhead]
    exact hroot hpreds x w hw

lemma Going.handlers (horder : Ordered layout order)
    (hplain : ∀ k, layout.isHandler k = false) (b : BlockId) : (p.func.block b).handlers = [] := by
  by_cases hlt : p.func.HasBlock b
  · have hmap : ∀ {targets : List BlockId}, Catches p.func b targets → targets = [] →
        (p.func.block b).handlers = [] := by
      rintro targets hcatches rfl
      exact map_eq_nil_iff.1 hcatches
    have hrange : ∀ k, p.blockOf.get? k = some b → (p.func.block b).handlers = [] := by
      intro k hk
      obtain ⟨r, hr⟩ := horder.range k ((h.skeleton.created k).1 ⟨b, hk⟩)
      obtain ⟨-, normal, handlers, -, hhandlers, -, hcatches⟩ := h.skeleton.wired hk r hr
      have hnone : r.exceptional = [] := by
        rw [eq_nil_iff_forall_not_mem]
        intro g hg
        have := hlays.handlers hr g hg
        simp [hplain] at this
      refine hmap hcatches ?_
      rw [hnone] at hhandlers
      simpa [BlocksOf] using hhandlers.symm
    rcases h.skeleton.covers b hlt with rfl | ⟨k, hk⟩
    · cases hsep : separate with
      | true =>
        obtain ⟨first, -, -, hcatches⟩ := h.skeleton.entry_wired hsep
        exact hmap hcatches rfl
      | false =>
        obtain ⟨c, hc⟩ := (h.skeleton.created 0).2 horder.zero
        have hentry := (h.skeleton.entry_iff hc).2 ⟨rfl, hsep⟩
        exact hrange 0 (hentry ▸ hc)
    · exact hrange k hk
  · rw [p.func.block_of_size_le (Nat.le_of_not_lt hlt)]
    rfl

lemma Going.finished (horder : Ordered layout order)
    (hview : s.view = .identity) (hplain : ∀ k, layout.isHandler k = false)
    (hagree : KindsAgree s.body)
    (hempty : ∀ c, c ≠ p.func.entry → (start.func.block c).insns = []) :
    Finished s layout order p := by
  refine ⟨hlays, h.wellFormed horder, h.no_gap horder, h.handlers hlays horder hplain, ?_, ?_⟩
  · intro k hk j hj
    obtain ⟨r, hr⟩ := horder.range k hk
    refine horder.closed k hk j ?_
    rw [Layout.Lays.graph_succ hr, mem_append]
    exact .inl (by simpa [Layout.normal, hr] using hj)
  · intro k hk
    obtain ⟨b, hb⟩ := (h.skeleton.created k).2 hk
    obtain ⟨r, S, stack, before, stop, final, hplaced, -, -⟩ :=
      h.placed hlays (fun k hk => by simp [hplain] at hk) horder hview hagree hempty hk (hplain k) hb
    exact ⟨b, r, S, stack, before, stop, final, hb, hplaced⟩

end

/-- At the start the function takes up its parameters and comes to the first range. -/
lemma Going.related_start
    (hbegun : Begun s separate p1 q start) (hroot : p1.closed = [p1.func.entry])
    (hlays : layout.Lays s.body.instructions) (horder : Ordered layout order)
    (hview : s.view = .identity) (hplain : ∀ k, layout.isHandler k = false)
    (hagree : KindsAgree s.body) {D : Type} (cells : Nat → D) (env : ValueId → D) :
    Related s layout order p (s.arguments cells) (Machine.start cells)
      (Semantics.start p.func env) := by
  have hempty := hbegun.insns
  have hfinished := h.finished hlays horder hview hplain hagree hempty
  have hlater : Later q p [] [] := hbegun.later.trans h.later
  have hnodup := hbegun.inBlock.sound.flow.exact.insns_nodup p.func.entry
  have hparams : (s.arguments cells).drop 0 = s.arguments cells := rfl
  have hglide := fun rest => hbegun.params.glides (b := p.func.entry) hlater
    hbegun.inBlock.sound h.sound hnodup hparams rest env
  obtain ⟨r0, hr0, hstart0⟩ := hlays.first
  have hlt0 := (hlays.bounds hr0).1
  have henters : layout.Enters s.body.instructions 0 0 :=
    ⟨r0, hr0, by omega, by omega, fun i _ hi => by omega⟩
  have hhead : order.head? = some 0 := by
    rw [horder.eq]
    exact Graph.head?_reversePostorder (Layout.Lays.lt_of_range? hr0)
  -- only the parameters are held from the first
  have hparam : ∀ {env' : ValueId → D}, (∀ i ∈ parameterSlots 0 s.parameterKinds, ∃ v,
      q.held.get? (q.func.entry, .slot i) = some v ∧ p.resolve v = v ∧ env' v = cells i) →
      ∀ x v, q.held.get? (p.func.entry, x) = some v →
        ∃ i, x = .slot i ∧ env' (p.resolve v) = cells i := by
    intro env' hheld x v hv
    by_contra hcon
    have hnone := hbegun.held (p.func.entry, x) fun i hi heq => by
      obtain rfl : x = .slot i := (Prod.mk.inj heq).2
      obtain ⟨w, hw, hresolve, hcell⟩ := hheld i hi
      obtain rfl := some.inj (hv.symm.trans hw)
      exact hcon ⟨i, rfl, by rw [hresolve, hcell]⟩
    rw [hv] at hnone
    cases hnone
  cases hsep : separate with
  | true =>
    obtain ⟨i, first, hfirst, hinsns, hop, -⟩ := hbegun.apart hsep
    have hdone : p.func.entry ∈ start.done := by
      rw [hbegun.done, if_pos hsep]
      exact mem_singleton_self _
    have hinsns' := (h.kept _ hdone).trans hinsns
    have hmem : i ∈ (start.func.block p.func.entry).insns := by
      rw [show (start.func.block p.func.entry).insns = _ from hinsns]
      simp
    have hlive := ((hbegun.sound.flow.exact.insns_iff _ i).1 hmem).1
    have hop' : (p.func.insn i).op = .goto first := by
      rw [h.later.insn i (start.func.lt_insns_of_live hlive)]
      rw [hop]
      rfl
    have hblock : p.blockOf.get? 0 = some first := by
      obtain ⟨b, hb⟩ := (h.skeleton.created 0).2 horder.zero
      obtain ⟨q0, first', last, hlifted, hq0, -⟩ := h.lifted 0 horder.zero b hb
      rw [hlifted.blockOf, hq0 hhead, hbegun.blockOf, hfirst]
    obtain ⟨n, env', hglides, hheld, -⟩ := hglide [i]
    refine ⟨n + 1, follow p.func p.func.entry 0 env', ?_, hfinished.enter horder.zero hblock ?_
      h.first henters ?_ ?_⟩
    · rw [Semantics.start, hinsns']
      exact hglides.trans (.single (Semantics.next_of_jump (by rw [hop']; rfl)))
    · rw [successors_of_terminated hinsns' (by rw [hop']; rfl), hop']
      rfl
    · intro j u hu
      cases hheld' : q.held.get? (p.func.entry, .slot j) with
      | none =>
        have hstart := hbegun.unheld (.slot j) hheld'
        have hnone := h.later.unheld p.func.entry hdone
          ⟨(hbegun.closed _).2 (.inl (by rw [hroot]; exact mem_singleton_self _)),
            hbegun.sound.flow.entry_preds⟩ _ hstart
        obtain ⟨w, hw, -⟩ := hu
        rw [hnone] at hw
        cases hw
      | some v =>
        have hholds := h.later.holds p.func.entry hdone _ _ (hbegun.kept _ v hheld')
        rw [h.later.resolve] at hholds
        obtain ⟨i, hi, hcell⟩ := hparam hheld _ v hheld'
        obtain rfl := Variable.slot.inj hi
        rw [hu.inj hholds, hcell]
    · intro j u d hd
      simp at hd
  | false =>
    obtain rfl := hbegun.joint hsep
    obtain ⟨b, hb⟩ := (h.skeleton.created 0).2 horder.zero
    obtain rfl := (h.skeleton.entry_iff hb).2 ⟨rfl, hsep⟩
    obtain ⟨r, S, stack, before, stop, final, hplaced, hbefore, hheldS⟩ :=
      h.placed hlays (fun k hk => by simp [hplain] at hk) horder hview hagree hempty horder.zero
        (hplain 0) hb
    obtain rfl := some.inj (hplaced.range.symm.trans hr0)
    obtain ⟨rest, hrest⟩ := hplaced.before_split le_rfl hplaced.start_le
    obtain ⟨n, env', hglides, hheld, -⟩ := hglide rest
    have hag : Agree p.resolve S (contentsAt ⟨[], cells⟩ fun _ => cells 0) env' := by
      intro x w hw
      obtain ⟨v, hv, heq⟩ := hheldS h.sound.flow.entry_preds hhead x w hw
      obtain ⟨i, rfl, hcell⟩ := hparam hheld x v hv
      rw [heq, hcell]
      rfl
    obtain ⟨st, shape, hshape', hstack⟩ := hplaced.enters
    obtain rfl := some.inj (hshape'.symm.trans h.first)
    refine ⟨n, _, ?_, .running (o := 0) horder.zero hplaced (by omega)
      (hstart0 ▸ hplaced.start_le) (by omega) hag ?_ (by rw [← hstart0, hrest])⟩
    · rwa [Semantics.start, ← hrest, hbefore]
    · rw [← hstart0, hstack]
      exact (frame_enterBlock st ⟨[], cells⟩ _ _ _).symm

end

end Lifted

/-- Lifting preserves behaviour: a method without handlers, in which control comes to each instruction
with the same kinds of slots on all ways, asks the same questions and ends in the same way as the
function that it is lifted to, whatever the answers are. -/
theorem lift_shows_iff (s : Subject) (hview : s.view = .identity) (hhandlers : s.body.handlers = [])
    (hagree : SlotsAgree s.body.instructions) {f : Function} (hlift : lift s = .ok f) {D : Type}
    (cells : Nat → D) (env : ValueId → D) (trace : List (Question D × Answer D))
    (ending : Option (Ending D)) :
    Shows (Machine.next s.body.instructions) (Machine.start cells) trace ending ↔
      Shows (Semantics.next f (s.arguments cells)) (Semantics.start f env) trace ending := by
  obtain ⟨layout, separate, p1, q, start, p, n, g, f', hbuild, hbegun, hclosed, hgoing, hclean, hg,
    hcompact, hf', rfl⟩ := lift_ok hlift
  have hlays := Layout.lays_of_build hbuild
  have horder := ordered_reversePostorder hlays
  have hplain := Layout.isHandler_of_build hbuild hhandlers
  have hkinds := hagree.kindsAgree hhandlers
  have hfinished := hgoing.finished hlays horder hview hplain hkinds hbegun.insns
  have hstart := fun env => hgoing.related_start hbegun hclosed hlays horder hview hplain hkinds
    cells env
  obtain ⟨r, hr⟩ := Semantics.shows_compact hg hcompact
  calc Shows (Machine.next s.body.instructions) (Machine.start cells) trace ending
      ↔ Shows (Semantics.next p.func (s.arguments cells)) (Semantics.start p.func (env ∘ r)) trace
          ending := hfinished.simulation.shows_iff (hstart _)
    _ ↔ Shows (Semantics.next g (s.arguments cells)) (Semantics.start g (env ∘ r)) trace ending :=
        Semantics.shows_cleanUpPhis (hgoing.wellFormed horder) hclean _
    _ ↔ Shows (Semantics.next f' (s.arguments cells)) (Semantics.start f' env) trace ending :=
        hr D _ env trace ending
    _ ↔ _ := Semantics.shows_congr hf' (fun _ => rfl) (fun _ => rfl) (fun _ => rfl) env

/-- Counts its parameter down to zero. -/
def countdown : Subject where
  method := ⟨⟨"LMain;"⟩, "countdown", ⟨⟨"I"⟩, [⟨"I"⟩]⟩⟩
  isStatic := true
  body :=
    { maxStack := 1, maxLocals := 1
      instructions := [.label ⟨0⟩, .iinc 0 (-1), .load .int 0, .branch .ne .int ⟨0⟩, .load .int 0,
        .ret (some .int)] }

lemma countdown_slotsAgree : SlotsAgree countdown.body.instructions := by
  let kinds : Nat → List ValueType := fun o => if o = 3 ∨ o = 5 then [.int] else []
  refine Machine.slotsAgree_of_kinds (show kinds 0 = [] from rfl) ?_ ?_
  · rintro (⟨o, frame⟩ | ending) u hkinded hnext
    · subst hkinded
      rcases o with _ | _ | _ | _ | _ | _ | o <;> cases hnext <;> rfl
    · cases hnext
  · rintro (⟨o, frame⟩ | ending) question resume hkinded hnext answer
    · subst hkinded
      rcases o with _ | _ | _ | _ | _ | _ | o <;> cases hnext
      · cases answer <;> first | rfl | trivial
      · rcases answer with content | n | e
        · trivial
        · rcases n with _ | _ | n <;> first | rfl | trivial
        · trivial
    · cases hnext

/-- Control comes back to the first instruction of `countdown`, and its parameter is changed there. -/
theorem countdown_shows_iff : countdown.view = .identity ∧ countdown.body.handlers = [] ∧
    SlotsAgree countdown.body.instructions ∧ ∃ f, lift countdown = .ok f ∧
      ∀ (cells : Nat → Int) (env : ValueId → Int) trace ending,
        Shows (Machine.next countdown.body.instructions) (Machine.start cells) trace ending ↔
          Shows (Semantics.next f (countdown.arguments cells)) (Semantics.start f env) trace
            ending := by
  obtain ⟨f, hf⟩ : ∃ f, lift countdown = .ok f := by
    have hok : (lift countdown).toOption.isSome = true := by decide +kernel
    cases hlift : lift countdown with
    | ok f => exact ⟨f, rfl⟩
    | error e => rw [hlift] at hok; cases hok
  exact ⟨rfl, rfl, countdown_slotsAgree, f, hf,
    lift_shows_iff countdown rfl rfl countdown_slotsAgree hf⟩

end Dissolve.Lift
