import Dissolve.Proofs.Lift.Entry
import Dissolve.Proofs.Ssa.Renumber
import Dissolve.Proofs.Ssa.Rewording

/-!
# Proofs.Lift.Outcome — how lifting a method ends

The ranges are lifted in reverse postorder. `Going s layout order separate start seen p` says what
holds when those of `seen` are lifted: their blocks are ended (`Closes`), the other blocks hold no
terminator yet, every block all of whose predecessors are lifted is closed, and every range that a
lifted one leads to knows the shape of its stack. When nothing is left, no phi waits and the function
is well formed.

Main statement: lifting gives a function that passes the check or fails by a fault of the code, and
the check itself changes nothing (`lift_verified_or_blames`).
-/

namespace Dissolve.Lift

open List
open Code (Instruction)
open Ssa (Function Op)
open Progress

variable {f : Function} {q : Progress} {last i : InsnId} {front : List InsnId}
  {gaps gaps' : List Gap} {order ks : List Nat}

variable {s : Subject} {layout : Layout} {k : Nat} {p p' : Progress} {b : BlockId} {r : Range}

/-! ## One range -/

/-- Range `k` was lifted to block `b`: it was entered, its instructions took the lifting from `first`
to `last`, and it was left. -/
structure Crossed (s : Subject) (layout : Layout) (k : Nat) (r : Range)
    (p first last p' : Progress) (b : BlockId) : Prop where
  fallsOff : r.fallsOff = false
  entered : Entered layout k (p.setting p.stack p.shapes b r.start) first b
  rounded : Rounded s layout k r first last b
  leaves : Leaves layout k last p' b

lemma liftRange_ensures (hlays : layout.Lays s.body.instructions) (hr : layout.range? k = some r)
    (hs : p.Sound []) (hp : p.Honest []) (hb : p.blockOf.get? k = some b)
    (hlt : p.func.HasBlock b) (hdone : b ∉ p.done) (hcreated : Created layout p k)
    (hshape : layout.isHandler k = false → ∃ shape, p.shapes.get? k = some shape ∧
      OperandStack.wordsOfKinds shape ≤ p.stack.maxStack) :
    Ensures (liftRange s layout k r) p fun _ p' =>
      ∃ first last, Crossed s layout k r p first last p' b := by
  refine .seq (blockOfRange_ensures ⟨b, hb⟩) ?_
  rintro c _ ⟨rfl, hc⟩
  obtain rfl := Option.some.inj (hb.symm.trans hc)
  refine .bind (.modifying ?_)
  by_cases hoff : r.fallsOff = true
  · rw [if_pos hoff]
    refine .bind (.modifying ?_)
    exact .seq (Q := fun _ _ => False) (.fault _) fun _ _ h => h.elim
  rw [if_neg hoff]
  rw [Bool.not_eq_true] at hoff
  refine .seq (enterRange_ensures (sound_setting hs) hp rfl hlt hdone hshape) ?_
  intro _ p1 hentered
  have hcreated1 : Created layout p1 k := by
    have hsetting : Created layout (p.setting p.stack p.shapes b r.start) k := hcreated
    exact hsetting.of_within hentered.within
  have hleave : ∀ p2, Rounded s layout k r p1 p2 b →
      Ensures (leaveRange s layout k) p2 fun _ p' =>
        ∃ first last, Crossed s layout k r p first last p' b := by
    intro p2 hrounded
    refine (leaveRange_ensures hrounded.ended.1).mono ?_
    intro _ p' hleaves
    exact ⟨p1, p2, hoff, hentered, hrounded, hleaves⟩
  have hself := endsItself_iff hlays hr
  cases hends : (Layout.lastInsn s.body.instructions r).endsBlock with
  | true =>
    rw [hself, hends]
    refine .seq (liftEnded_ensures hlays hr hoff hentered.inBlock hcreated1 hends) ?_
    intro _ p2 hrounded
    exact hleave p2 hrounded
  | false =>
    rw [hself, hends]
    have hbody := liftFalling_ensures hlays hr hoff hentered.inBlock hcreated1 hends
    have hall := Ensures.seq hbody fun _ p2 hrounded => hleave p2 hrounded
    simpa only [bind_assoc, Bool.not_false, if_true] using hall

/-! ## Ended blocks -/

/-- A block has one terminator, at its end, and is a predecessor of the blocks it leads to. -/
structure Closes (f : Function) (b : BlockId) : Prop where
  terminated : ∃ front last, (f.block b).insns = front ++ [last] ∧
    (f.insn last).op.isTerminator = true ∧ ∀ i ∈ front, (f.insn i).op.isTerminator = false
  edges : ∀ c, (f.predecessors c).count b = (f.successors b).count c

lemma isTerminator_later (hs : p.Sound gaps) (hlater : Later p p' gaps gaps')
    (hi : i ∈ (p.func.block b).insns) :
    (p'.func.insn i).op.isTerminator = (p.func.insn i).op.isTerminator := by
  have hlive := ((hs.flow.exact.insns_iff b i).1 hi).1
  rw [hlater.insn i (p.func.lt_insns_of_live hlive), Ssa.Op.isTerminator_mapOperands]

lemma Closes.later (h : Closes p.func b) (hs : p.Sound gaps) (hlater : Later p p' gaps gaps')
    (hinsns : (p'.func.block b).insns = (p.func.block b).insns) : Closes p'.func b := by
  obtain ⟨front, last, heq, hlast, hfront⟩ := h.terminated
  refine ⟨⟨front, last, hinsns.trans heq, ?_, fun i hi => ?_⟩, fun c => ?_⟩
  · rw [isTerminator_later hs hlater (b := b) (by simp [heq])]
    exact hlast
  · rw [isTerminator_later hs hlater (b := b) (by simp [heq, hi])]
    exact hfront i hi
  · rw [hlater.preds, successors_of_later hs hlater hinsns]
    exact h.edges c

lemma successors_of_terminated
    (h : (f.block b).insns = front ++ [last]) (hterm : (f.insn last).op.isTerminator) :
    f.successors b = (f.insn last).op.targets ++ (f.block b).handlers.map Ssa.Handler.target := by
  have hlast : f.terminator? b = some last := by
    simp [Function.terminator?, h, Option.filter_some, hterm]
  simp [Function.successors, Function.normalSuccessors, hlast]

lemma Progress.BlocksOf.unique {bs cs : List BlockId} (h : p.BlocksOf ks bs) (h' : p.BlocksOf ks cs)
    : bs = cs :=
  map_injective_iff.2 (Option.some_injective _) (h.symm.trans h')

/-- A block whose terminator goes to the blocks of the successors of its range. -/
lemma Skeleton.closes {separate : Bool} (h : Skeleton layout order separate p)
    (hb : p.blockOf.get? k = some b) (hr : layout.range? k = some r)
    (hinsns : (p.func.block b).insns = front ++ [last])
    (hfront : ∀ i ∈ front, (p.func.insn i).op.isTerminator = false)
    (hterm : (p.func.insn last).op.isTerminator)
    (htargets : p.BlocksOf (layout.normal k) (p.func.insn last).op.targets) : Closes p.func b := by
  obtain ⟨-, normal, handlers, hnormal, -, hsends, hcatches⟩ := h.wired hb r hr
  refine ⟨⟨front, last, hinsns, hterm, hfront⟩, fun c => ?_⟩
  have hn : layout.normal k = r.normal := by simp [Layout.normal, hr]
  rw [hn] at htargets
  rw [hsends c, successors_of_terminated hinsns hterm, ← hnormal.unique htargets, hcatches]

/-! ## One range after the other -/

/-- Range `k` was lifted to block `b`, and `p` is a later stage. -/
structure Lifted (s : Subject) (layout : Layout) (k : Nat) (p q first last : Progress)
    (b : BlockId) : Prop where
  crossed : ∃ r q', layout.range? k = some r ∧ Crossed s layout k r q first last q' b ∧
    Later q' p [] [] ∧ (p.func.block b).insns = (q'.func.block b).insns
  shape : ∀ sh, q.shapes.get? k = some sh → p.shapes.get? k = some sh
  blockOf : p.blockOf = q.blockOf
  rooted : q.func.entry ∈ q.closed
  limit : q.stack.maxStack = s.body.maxStack
  length : ∀ j ∈ layout.normal k, ∃ sh, p.shapes.get? j = some sh ∧
    sh.length = last.stack.slots.length

/-- Where the shape of the stack at the start of a range comes from: the first range starts with an
empty stack, every other one with what some lifted range before it left. -/
inductive Shaped (s : Subject) (layout : Layout) (p : Progress) : Nat → List ValueType → Prop
  | first : Shaped s layout p 0 []
  | caught {k j : Nat} {q first last : Progress} {b : BlockId} (handler : layout.isHandler k = true)
      (lifted : Lifted s layout k p q first last b) (edge : j ∈ layout.normal k) :
      Shaped s layout p j (last.stack.bottomUp.map Slot.ty)
  | next {k j : Nat} {shape : List ValueType} {q first last : Progress} {b : BlockId}
      (before : Shaped s layout p k shape) (lifted : Lifted s layout k p q first last b)
      (stack : ∃ st : OperandStack, first.stack = st.enterBlock shape)
      (edge : j ∈ layout.normal k) : Shaped s layout p j (last.stack.bottomUp.map Slot.ty)

/-- The ranges of `seen` are lifted; `start` is the stage before the first of them. -/
structure Going (s : Subject) (layout : Layout) (order : List Nat) (separate : Bool)
    (start : Progress) (seen : List Nat) (p : Progress) : Prop where
  sound : p.Sound []
  honest : p.Honest []
  skeleton : Skeleton layout order separate p
  later : Later start p [] []
  kept : ∀ b ∈ start.done, (p.func.block b).insns = (start.func.block b).insns
  done : ∀ b, b ∈ p.done ↔
    separate = true ∧ b = p.func.entry ∨ ∃ k ∈ seen, p.blockOf.get? k = some b
  closed : ∀ c, c.index < p.func.blocks.size → (∀ d ∈ p.func.predecessors c, d ∈ p.done) →
    c ∈ p.closed
  ended : ∀ b ∈ p.done, Closes p.func b
  unended : ∀ b, b ∉ p.done → ∀ i ∈ (p.func.block b).insns, (p.func.insn i).op.isTerminator = false
  untouched : ∀ b, b ∉ p.done → (p.func.block b).insns = (start.func.block b).insns
  first : p.shapes.get? 0 = some []
  shapes : ∀ j ∈ seen, ∀ k ∈ layout.normal j, ∃ shape, p.shapes.get? k = some shape
  shaped : ∀ k shape, p.shapes.get? k = some shape → Shaped s layout p k shape
  limit : p.stack.maxStack = s.body.maxStack
  fit : ∀ k shape, p.shapes.get? k = some shape →
    OperandStack.wordsOfKinds shape ≤ s.body.maxStack
  unbegun : seen = [] → p = start
  lifted : ∀ k ∈ seen, ∀ b, p.blockOf.get? k = some b →
    ∃ q first last, Lifted s layout k p q first last b ∧ (order.head? = some k → q = start) ∧
      (q.func.block b).insns = (start.func.block b).insns

section Lifted

variable {first last : Progress}

lemma Lifted.done (h : Lifted s layout k p q first last b) : b ∈ p.done := by
  obtain ⟨r, q', -, hcrossed, hlater, -⟩ := h.crossed
  exact hlater.done b (by simp [hcrossed.leaves.done])

/-- A later stage that leaves lifted blocks alone. -/
structure Beyond (p p' : Progress) : Prop where
  later : Later p p' [] []
  blockOf : p'.blockOf = p.blockOf
  insns : ∀ c ∈ p.done, (p'.func.block c).insns = (p.func.block c).insns
  shapes : ∀ j sh, p.shapes.get? j = some sh → p'.shapes.get? j = some sh

lemma Lifted.beyond (h : Lifted s layout k p q first last b) (hp : Beyond p p') :
    Lifted s layout k p' q first last b := by
  obtain ⟨r, q', hr, hcrossed, hq', heq⟩ := h.crossed
  exact ⟨⟨r, q', hr, hcrossed, hq'.trans hp.later, (hp.insns b h.done).trans heq⟩,
    fun sh hsh => hp.shapes k sh (h.shape sh hsh), hp.blockOf.trans h.blockOf, h.rooted, h.limit,
    fun j hj => (h.length j hj).imp fun sh hsh => hsh.imp_left (hp.shapes j sh)⟩

lemma Shaped.beyond {shape : List ValueType} (h : Shaped s layout p k shape)
    (hp : Beyond p p') : Shaped s layout p' k shape := by
  induction h with
  | first => exact .first
  | caught handler lifted edge => exact .caught handler (lifted.beyond hp) edge
  | next _ lifted stack edge ih => exact .next ih (lifted.beyond hp) stack edge

end Lifted

section Loop

variable {seen rest : List Nat} {separate : Bool} {start : Progress}

section

variable (h : Going s layout order separate start seen p)
include h

lemma Going.shape (hlays : layout.Lays s.body.instructions) (horder : Ordered layout order)
    (hsplit : order = seen ++ k :: rest) (hplain : layout.isHandler k = false) :
    ∃ shape, p.shapes.get? k = some shape ∧ OperandStack.wordsOfKinds shape ≤ p.stack.maxStack := by
  suffices h' : ∃ shape, p.shapes.get? k = some shape from
    h'.imp fun shape hshape => ⟨hshape, h.limit ▸ h.fit k shape hshape⟩
  have hled := Graph.reversePostorder_led layout.graph 0
  rw [← horder.eq] at hled
  rcases hled seen k rest hsplit with hzero | ⟨j, hj, hk⟩
  · obtain rfl := mem_singleton.1 hzero
    exact ⟨_, h.first⟩
  · obtain ⟨r, hr⟩ := horder.range j (by simp [hsplit, hj])
    rw [Layout.Lays.graph_succ hr, mem_append] at hk
    rcases hk with hk | hk
    · exact h.shapes j hj k (by simpa [Layout.normal, hr] using hk)
    · obtain ⟨g, hg, rfl⟩ := mem_map.1 hk
      rw [hlays.handlers hr g hg] at hplain
      exact Bool.noConfusion hplain

lemma Going.unlifted (horder : Ordered layout order) (hsplit : order = seen ++ k :: rest)
    (hb : p.blockOf.get? k = some b) : b ∉ p.done := by
  intro hmem
  rcases (h.done b).1 hmem with ⟨hsep, hentry⟩ | ⟨j, hj, hjb⟩
  · have := ((h.skeleton.entry_iff hb).1 hentry).2
    simp [hsep] at this
  · obtain rfl := h.skeleton.inj hjb hb
    have hnodup := horder.nodup
    rw [hsplit] at hnodup
    exact (nodup_append.1 hnodup).2.2 j hj j mem_cons_self rfl

omit h in
lemma closes_of_through (hskeleton : Skeleton layout order separate p)
    (hb : p.blockOf.get? k = some b) (hr : layout.range? k = some r) (hs : p.Sound [])
    (hopen : ∀ i ∈ (p.func.block b).insns, (p.func.insn i).op.isTerminator = false)
    {p1 p2 : Progress} (h : Crossed s layout k r p p1 p2 p' b) : Closes p'.func b := by
  obtain ⟨-, hentered, hrounded, hleaves⟩ := h
  obtain ⟨h2, hwithin, more, last, hinsns, hmore, hlast, htargets⟩ := hrounded.ended
  obtain ⟨front, hfront, hplain⟩ := hentered.insns
  have hlater1 : Later p p1 [] [] := (later_setting hs).trans hentered.within.later
  have hblock1 : p1.blockOf = p.blockOf := hentered.within.blockOf
  have hblock2 : p2.blockOf = p.blockOf := hwithin.blockOf.trans hblock1
  have hs1 := hentered.inBlock.sound
  have hskeleton2 := hskeleton.later (hlater1.trans hwithin.later) hblock2
  have hclosed : Closes p2.func b := by
    refine hskeleton2.closes (by rw [hblock2, hb]) hr hinsns (fun i hi => ?_) hlast ?_
    · rcases mem_append.1 hi with hi | hi
      · rw [isTerminator_later hs1 hwithin.later hi]
        rw [hfront] at hi
        rcases mem_append.1 hi with hi | hi
        · exact (isTerminator_later hs hlater1 hi).trans (hopen i hi)
        · exact hplain i hi
      · exact hmore i hi
    · rw [BlocksOf, hblock2, ← hblock1]
      exact htargets
  exact hclosed.later h2.sound hleaves.later (hleaves.insns b)

lemma Going.step (hlays : layout.Lays s.body.instructions) (horder : Ordered layout order)
    (hsplit : order = seen ++ k :: rest) (hr : layout.range? k = some r) :
    Ensures (liftRange s layout k r) p fun _ p' =>
      Going s layout order separate start (seen ++ [k]) p' := by
  have hk : k ∈ order := by simp [hsplit]
  obtain ⟨b, hb⟩ := (h.skeleton.created k).2 hk
  have hunlifted := h.unlifted horder hsplit hb
  have hcreated : Created layout p k := by
    intro j hj
    refine (h.skeleton.created j).2 (horder.closed k hk j ?_)
    rw [Layout.Lays.graph_succ hr, mem_append]
    exact .inl (by simpa [Layout.normal, hr] using hj)
  refine (liftRange_ensures hlays hr h.sound h.honest hb (h.skeleton.lt hb) hunlifted hcreated
    (h.shape hlays horder hsplit)).mono ?_
  rintro _ p' ⟨p1, p2, hthrough⟩
  have hcloses := closes_of_through h.skeleton hb hr h.sound (h.unended b hunlifted) hthrough
  obtain ⟨-, hentered, hrounded, hleaves⟩ := id hthrough
  obtain ⟨h2, hwithin, -⟩ := hrounded.ended
  have hlater1 : Later p p1 [] [] := (later_setting h.sound).trans hentered.within.later
  have hlater2 : Later p p2 [] [] := hlater1.trans hwithin.later
  have hlater : Later p p' [] [] := hlater2.trans hleaves.later
  have hblock : p'.blockOf = p.blockOf :=
    hleaves.blockOf.trans (hwithin.blockOf.trans hentered.within.blockOf)
  have hdone2 : p2.done = p.done := hwithin.done.trans hentered.within.done
  have hdone : p'.done = b :: p.done := by rw [hleaves.done, hdone2]
  have hclosed2 : p2.closed = p.closed := hwithin.closed.trans hentered.within.closed
  have hshapes2 : p2.shapes = p.shapes := hwithin.shapes.trans hentered.within.shapes
  have hinsns : ∀ c, c ≠ b → (p'.func.block c).insns = (p.func.block c).insns := fun c hc =>
    ((hleaves.insns c).trans (hwithin.insns c hc)).trans (hentered.within.insns c hc)
  have hne : ∀ c ∈ p.done, c ≠ b := fun c hc heq => hunlifted (heq ▸ hc)
  have hbeyond : Beyond p p' := ⟨hlater, hblock, fun c hc => hinsns c (hne c hc), fun j sh hsh =>
    hleaves.shapes_kept j sh (by rw [hshapes2, hsh])⟩
  have hlifted : Lifted s layout k p' p p1 p2 b :=
    ⟨⟨r, p', hr, hthrough, Later.refl hleaves.sound, rfl⟩, hbeyond.shapes k, hblock,
      h.closed _ h.skeleton.entry_lt (by simp [h.sound.flow.entry_preds]), h.limit,
      hleaves.shapes_length⟩
  have hlimit2 := (hwithin.limit.trans hentered.within.limit).trans h.limit
  refine ⟨hleaves.sound, hleaves.honest, h.skeleton.later hlater hblock, h.later.trans hlater, ?_,
    ?_, ?_, ?_, ?_, ?_, hbeyond.shapes 0 [] h.first, ?_, ?_, hleaves.limit.trans hlimit2, ?_,
    by simp, ?_⟩
  · intro c hc
    exact (hbeyond.insns c (h.later.done c hc)).trans (h.kept c hc)
  · intro c
    rw [hdone, mem_cons, h.done c, hblock]
    constructor
    · rintro (rfl | hsep | ⟨j, hj, hjc⟩)
      · exact .inr ⟨k, by simp, hb⟩
      · exact .inl hsep
      · exact .inr ⟨j, by simp [hj], hjc⟩
    · rintro (hsep | ⟨j, hj, hjc⟩)
      · exact .inr (.inl hsep)
      · rcases mem_append.1 hj with hj | hj
        · exact .inr (.inr ⟨j, hj, hjc⟩)
        · obtain rfl := mem_singleton.1 hj
          exact .inl (Option.some.inj (hjc.symm.trans hb))
  · intro c hc hall
    rw [hlater.preds, hdone] at hall
    rw [hleaves.closed, hclosed2]
    by_cases hold : ∀ d ∈ p.func.predecessors c, d ∈ p.done
    · exact .inl (h.closed c (by rwa [← hlater.size_blocks]) hold)
    · -- a predecessor that was still missing is the block just lifted
      obtain ⟨d, hd, hnot⟩ : ∃ d ∈ p.func.predecessors c, d ∉ p.done := by
        by_contra hc'
        exact hold fun d hd => by_contra fun hn => hc' ⟨d, hd, hn⟩
      obtain rfl : d = b := (mem_cons.1 (hall d hd)).resolve_right hnot
      refine .inr ⟨?_, ?_⟩
      · rw [← successors_of_later h2.sound hleaves.later (hleaves.insns d), ← count_pos_iff,
          ← hcloses.edges c, hlater.preds, count_pos_iff]
        exact hd
      · rw [hlater2.preds, hdone2]
        exact hall
  · intro c hc
    rw [hdone] at hc
    rcases mem_cons.1 hc with rfl | hc
    · exact hcloses
    · exact (h.ended c hc).later h.sound hlater (hinsns c (hne c hc))
  · intro c hc i hi
    rw [hdone, mem_cons, not_or] at hc
    rw [hinsns c hc.1] at hi
    exact (isTerminator_later h.sound hlater hi).trans (h.unended c hc.2 i hi)
  · intro c hc
    rw [hdone, mem_cons, not_or] at hc
    exact (hinsns c hc.1).trans (h.untouched c hc.2)
  · intro j hj i hi
    rcases mem_append.1 hj with hj | hj
    · obtain ⟨shape, hshape⟩ := h.shapes j hj i hi
      exact ⟨shape, hbeyond.shapes i shape hshape⟩
    · obtain rfl := mem_singleton.1 hj
      obtain ⟨shape, hshape, -⟩ := hleaves.shapes_length i hi
      exact ⟨shape, hshape⟩
  · intro j sh hsh
    rcases hleaves.shapes_new j sh hsh with hold | ⟨hj, rfl⟩
    · exact (h.shaped j sh (by rwa [← hshapes2])).beyond hbeyond
    · cases hhandler : layout.isHandler k with
      | true => exact .caught hhandler hlifted hj
      | false =>
        obtain ⟨-, shape, hshape, hstack, -⟩ := hentered.plain hhandler
        exact .next ((h.shaped k shape hshape).beyond hbeyond) hlifted ⟨_, hstack⟩ hj
  · intro j sh hsh
    rcases hleaves.shapes_new j sh hsh with hold | ⟨-, rfl⟩
    · exact h.fit j sh (by rwa [← hshapes2])
    · rw [OperandStack.wordsOfKinds_bottomUp, ← hlimit2]
      exact h2.fits
  · intro j hj c hc
    rw [hblock] at hc
    rcases mem_append.1 hj with hj | hj
    · obtain ⟨q, first, last, hbefore, hstart⟩ := h.lifted j hj c hc
      exact ⟨q, first, last, hbefore.beyond hbeyond, hstart⟩
    · obtain rfl := mem_singleton.1 hj
      obtain rfl := Option.some.inj (hb.symm.trans hc)
      refine ⟨p, p1, p2, hlifted, fun hhead => h.unbegun ?_, h.untouched b hunlifted⟩
      -- a range that stands before `k` in the order would be the first one
      cases seen with
      | nil => rfl
      | cons i seen =>
        have hnodup := horder.nodup
        rw [hsplit] at hnodup hhead
        obtain rfl : i = j := by simpa using hhead
        simp at hnodup

end

lemma liftOrder_ensures (h : Going s layout order separate start [] p)
    (hlays : layout.Lays s.body.instructions) (horder : Ordered layout order) :
    Ensures (order.forM fun k => do
        match layout.range? k with
        | some range => liftRange s layout k range
        | none => return) p fun _ p' => Going s layout order separate start order p' := by
  refine (Ensures.forM (I := fun rest p' => ∃ seen, order = seen ++ rest ∧
    Going s layout order separate start seen p') ⟨[], rfl, h⟩ ?_).mono ?_
  · rintro k rest p1 ⟨seen, hsplit, hgoing⟩
    obtain ⟨r, hr⟩ := horder.range k (by simp [hsplit])
    rw [hr]
    refine (hgoing.step hlays horder hsplit hr).mono ?_
    intro _ p2 hstep
    exact ⟨seen ++ [k], by simp [hsplit], hstep⟩
  · rintro _ p' ⟨seen, hsplit, hgoing⟩
    rw [append_nil] at hsplit
    rwa [← hsplit] at hgoing

/-! ## The start -/

lemma Params.isTerminator {index slot : Nat} {kinds : List ValueType} {is : List InsnId}
    (h : Params p index slot kinds is) : ∀ i ∈ is, (p.func.insn i).op.isTerminator = false := by
  induction h with
  | nil => simp
  | cons op _ _ _ ih =>
    intro i hi
    rcases mem_cons.1 hi with rfl | hi
    · rw [op]
      rfl
    · exact ih i hi

lemma Begun.closes (h : Begun s true p q p')
    (hskeleton : Skeleton layout order true p') : Closes p'.func p.func.entry := by
  obtain ⟨i, first, hfirst, hinsns, hop, -⟩ := h.apart rfl
  obtain ⟨first', hfirst', hsends, hcatches⟩ := hskeleton.entry_wired rfl
  rw [h.blockOf, hfirst] at hfirst'
  obtain rfl := Option.some.inj hfirst'
  have hterm : (p'.func.insn i).op.isTerminator := by
    rw [hop]
    rfl
  refine ⟨⟨_, i, hinsns, hterm, fun j hj => ?_⟩, fun c => ?_⟩
  · exact (isTerminator_later h.inBlock.sound h.later hj).trans (h.params.isTerminator j hj)
  · have hhandlers : (p'.func.block p.func.entry).handlers.map Ssa.Handler.target = [] := hcatches
    rw [successors_of_terminated hinsns hterm, hop, hhandlers]
    exact hsends c

lemma Begun.going (h : Begun s separate p q p') (hskeleton : Skeleton layout order separate p)
    (hclosed : p.closed = [p.func.entry]) (hshape : p.shapes = Assoc.empty.insert 0 [])
    (hlimit : p.stack.maxStack = s.body.maxStack) : Going s layout order separate p' [] p' := by
  have hskeleton' := hskeleton.later (h.within.later.trans h.later) h.blockOf
  have hdone : ∀ b, b ∈ p'.done ↔ separate ∧ b = p.func.entry := by
    intro b
    rw [h.done]
    cases separate <;> simp
  have hempty : ∀ k shape, p'.shapes.get? k = some shape → 0 = k ∧ shape = [] := by
    intro k shape hk
    rw [h.shapes, hshape, Assoc.get?_insert] at hk
    split at hk
    · next hzero => exact ⟨hzero, (Option.some.inj hk).symm⟩
    · cases hk
  refine ⟨h.sound, h.honest, hskeleton', Later.refl h.sound, fun _ _ => rfl, ?_, ?_, ?_, ?_,
    fun _ _ => rfl, ?_, by simp, ?_, h.limit.trans hlimit, ?_, fun _ => rfl, by simp⟩
  · intro b
    rw [hdone]
    simp only [not_mem_nil, false_and, exists_false, or_false]
    rfl
  · intro c hc hall
    rw [h.closed, hclosed, mem_singleton]
    -- a block other than the entry has a predecessor, which is lifted
    obtain ⟨t, ht⟩ := h.sound.reach c hc
    cases ht with
    | start => exact .inl rfl
    | step _ hedge =>
      obtain ⟨hsep, rfl⟩ := (hdone _).1 (hall _ hedge)
      subst hsep
      refine .inr ⟨rfl, ?_, fun d hd => ?_⟩
      · rw [← count_pos_iff, ← (h.closes hskeleton').edges, count_pos_iff]
        exact hedge
      · rw [← (h.within.later.trans h.later).preds] at hd
        exact ((hdone d).1 (hall d hd)).2
  · intro b hb
    obtain ⟨rfl, rfl⟩ := (hdone b).1 hb
    exact h.closes hskeleton'
  · intro b hb i hi
    by_cases hentry : b = p.func.entry
    · cases hsep : separate with
      | true => exact absurd ((hdone b).2 ⟨hsep, hentry⟩) hb
      | false =>
        rw [h.joint hsep, hentry] at hi
        rw [h.joint hsep]
        exact h.params.isTerminator i hi
    · rw [h.insns b hentry] at hi
      cases hi
  · rw [h.shapes, hshape, Assoc.get?_insert, if_pos rfl]
  · intro k shape hk
    obtain ⟨rfl, rfl⟩ := hempty k shape hk
    exact .first
  · intro k shape hk
    obtain ⟨-, rfl⟩ := hempty k shape hk
    exact Nat.zero_le _

/-! ## The end -/

section

variable (h : Going s layout order separate start order p)
include h

lemma Going.done_all (hlt : p.func.HasBlock b) (horder : Ordered layout order) : b ∈ p.done := by
  rw [h.done]
  rcases h.skeleton.covers b hlt with rfl | ⟨k, hk⟩
  · cases hsep : separate with
    | true => exact .inl ⟨rfl, rfl⟩
    | false =>
      obtain ⟨c, hc⟩ := (h.skeleton.created 0).2 horder.zero
      rw [(h.skeleton.entry_iff hc).2 ⟨rfl, hsep⟩] at hc
      exact .inr ⟨0, horder.zero, hc⟩
  · exact .inr ⟨k, (h.skeleton.created k).1 ⟨b, hk⟩, hk⟩

section

variable (horder : Ordered layout order)
include horder

lemma Going.closed_all (hlt : p.func.HasBlock b) : b ∈ p.closed :=
  h.closed b hlt fun d hd => h.done_all (h.sound.preds_lt b d hd) horder

lemma Going.no_gap (b : BlockId) (x : Variable) (q : PhiId) : ¬p.IsGap [] b x q := by
  intro hgap
  have hphi : q ∈ (p.func.block b).phis :=
    (h.sound.flow.exact.phis_iff b q).2
      ⟨(h.sound.flow.waits q ⟨b, x, hgap⟩).1, h.sound.gap_block b x q hgap⟩
  have hlt : p.func.HasBlock b := by
    by_contra hge
    rw [p.func.block_of_size_le (Nat.le_of_not_lt hge)] at hphi
    cases hphi
  rcases hgap with hmem | hmem
  · cases hmem
  · rw [h.sound.waiting_open b (h.closed_all horder hlt)] at hmem
    cases hmem

lemma Going.wellFormed : p.func.WellFormed := by
  have hlive : ∀ b, p.func.LiveBlock b ↔ p.func.HasBlock b := fun b =>
    ⟨p.func.lt_blocks_of_live, h.sound.live b⟩
  have hgone : ∀ b, ¬p.func.HasBlock b → p.func.block b = Ssa.Block.gone := fun b hb =>
    p.func.block_of_size_le (Nat.le_of_not_lt hb)
  have hgap : ∀ q, ¬∃ b x, p.IsGap [] b x q := by
    rintro q ⟨b, x, hgap⟩
    exact h.no_gap horder b x q hgap
  refine ⟨?_, ?_, ?_, ?_, ?_⟩
  · have hflow := h.sound.flow
    rwa [show (fun q => ∃ b x, p.IsGap [] b x q) = fun _ => False from
      funext fun q => propext ⟨hgap q, False.elim⟩] at hflow
  · exact (hlive _).2 h.skeleton.entry_lt
  · intro b hb
    refine hgone b fun hlt => ?_
    rw [(hlive b).2 hlt] at hb
    exact Bool.noConfusion hb
  · intro b hb
    exact (h.ended b (h.done_all ((hlive b).1 hb) horder)).terminated
  · intro b c
    by_cases hlt : p.func.HasBlock c
    · exact (h.ended c (h.done_all hlt horder)).edges b
    · rw [count_eq_zero.2 fun hmem => hlt (h.sound.preds_lt b c hmem)]
      simp [Function.successors, Function.normalSuccessors, Function.terminator?, hgone c hlt,
        Ssa.Block.gone]

omit horder in
omit h in
lemma discard_run {α : Type} {x : Ssa.Edit α} {a : α} {g : Function} (h : x.run f = .ok a g) :
    (discard x).run f = .ok PUnit.unit g := by
  change EStateM.map (fun _ => PUnit.unit) x f = _
  rw [EStateM.map, show x f = .ok a g from h]

/-- Cleaning up gives a well-formed function, so checking it at the end or not is the same. -/
lemma finishFunction_run :
    ∃ n g f p', Ssa.cleanUpPhis.run p.func = .ok n g ∧ g.WellFormed ∧
      Ssa.compact.run g = .ok () f ∧ f.WellFormed ∧ ∀ config,
        (finishFunction { s with config }).run p =
          .ok ({ f with lens := s.view.target <|> s.body.lens }, p') := by
  have hall : p.func.blockIds.find? (fun b => b ∉ p.closed) = none := by
    simp only [find?_eq_none, decide_not, Bool.not_eq_true', decide_eq_false_iff_not, not_not]
    intro b hb
    exact h.closed_all horder (p.func.lt_blocks_of_live ((Function.mem_blockIds _ b).1 hb))
  obtain ⟨n, -, g, hclean, -, -, hg⟩ := (h.wellFormed horder).cleanUpPhis_run
  obtain ⟨f, r, hcompact, -, hf⟩ := hg.compact_run
  have hedit : (do discard Ssa.cleanUpPhis; Ssa.compact : Ssa.Edit Unit).run p.func = .ok () f := by
    rw [Ssa.Edit.run_bind_ok (discard_run hclean), hcompact]
  have hverify := ((f.rewords_lens (s.view.target <|> s.body.lens)).wellFormed hf).verify
  refine ⟨n, g, f, { p with func := f }, hclean, hg, hcompact, hf, fun config => ?_⟩
  simp only [finishFunction, hall, edit, hedit, StateT.run_bind, StateT.run_get, pure_bind,
    StateT.run_set, StateT.run_pure]
  cases config.verify with
  | false => rfl
  | true =>
    simp only [if_true, hverify]
    rfl

end

end

end Loop

/-! ## The whole method -/

def Subject.start (s : Subject) : Progress where
  func := .empty s.method s.isStatic
  stack := .empty s.method s.body.maxStack
  shapes := Assoc.empty.insert 0 []

lemma lift_eq (s : Subject) :
    lift s = Layout.build s.method s.body >>= fun layout =>
      if layout.isHandler 0 then .error (.malformedCode s.method 0 .handlerFirst)
      else (liftCode s layout (layout.graph.reversePostorder 0)).run s.start >>= fun r =>
        Prod.fst <$> (finishFunction s).run r.2 := by
  refine bind_congr fun layout => ?_
  cases layout.isHandler 0 with
  | true => rfl
  | false =>
    change Prod.fst <$> ((liftCode s layout _).run s.start >>= _) = _
    rw [map_bind]
    rfl

lemma liftCode_ensures (hlays : layout.Lays s.body.instructions) (horder : Ordered layout order) :
    Ensures (liftCode s layout order) s.start fun _ p => ∃ separate p1 q start,
      Begun s separate p1 q start ∧ Skeleton layout order separate p1 ∧
      p1.closed = [p1.func.entry] ∧ Going s layout order separate start order p := by
  refine .seq (createBlocks_ensures horder (Bare.empty _ _) rfl rfl) ?_
  rintro _ p1 ⟨hskeleton, hbare1, hp1⟩
  have hclosed1 : p1.closed = [p1.func.entry] := by rw [hp1]; rfl
  obtain ⟨hs1, hh1⟩ := hskeleton.sound horder hbare1 rfl (by rw [hp1]; rfl) (by rw [hp1]; rfl)
    (by rw [hp1]; rfl) hclosed1
  refine .seq (liftEntry_ensures hs1 hh1 hbare1 hskeleton.entry_lt
    ((hskeleton.created 0).2 horder.zero) (by rw [hclosed1]; exact mem_singleton_self _) (by rw [hp1]; rfl) (by rw [hp1]; rfl)
    (by rw [hp1]; rfl) (by rw [hp1]; rfl)) ?_
  rintro _ p2 ⟨q, hbegun⟩
  have hstart : p1.shapes = Assoc.empty.insert 0 [] ∧ p1.stack.maxStack = s.body.maxStack := by
    rw [hp1]
    exact ⟨rfl, rfl⟩
  refine (liftOrder_ensures (hbegun.going hskeleton hclosed1 hstart.1 hstart.2) hlays horder).mono ?_
  intro _ p3 hgoing
  exact ⟨_, p1, q, p2, hbegun, hskeleton, hclosed1, hgoing⟩

lemma lift_ok (h : lift s = .ok f) : ∃ layout separate p1 q start p n g f',
    Layout.build s.method s.body = .ok layout ∧
    Begun s separate p1 q start ∧ p1.closed = [p1.func.entry] ∧
    Going s layout (layout.graph.reversePostorder 0) separate start
      (layout.graph.reversePostorder 0) p ∧
    Ssa.cleanUpPhis.run p.func = .ok n g ∧ g.WellFormed ∧ Ssa.compact.run g = .ok () f' ∧
    f'.WellFormed ∧ f = { f' with lens := s.view.target <|> s.body.lens } := by
  rw [lift_eq] at h
  obtain ⟨layout, hbuild, h⟩ := ok_of_bind h
  split at h
  · cases h
  obtain ⟨result, hcode, h⟩ := ok_of_bind h
  have hlays := Layout.lays_of_build hbuild
  have horder := ordered_reversePostorder hlays
  have hensures := liftCode_ensures hlays horder
  unfold Ensures at hensures
  rw [hcode] at hensures
  obtain ⟨separate, p1, q, start, hbegun, -, hclosed, hgoing⟩ := hensures
  obtain ⟨n, g, f', p', hclean, hg, hcompact, hf', hfinish⟩ := finishFunction_run hgoing horder
  refine ⟨layout, separate, p1, q, start, result.2, n, g, f', hbuild, hbegun, hclosed, hgoing, hclean,
    hg, hcompact, hf', ?_⟩
  rw [show (finishFunction s).run result.2 = _ from hfinish s.config] at h
  exact (Except.ok.inj h).symm

end Dissolve.Lift
