import Dissolve.Proofs.Optimize.Answers

/-!
# Proofs.Optimize.Summaries — summaries do not depend on what was asked before

Summaries are kept while the search for them goes on, and a method on the way has no summary yet. What
a method does with its receiver is therefore said here without a search:

* `Setting.Harmless`: every use of the receiver keeps it, calls of other methods included,
* `Setting.Fails`: the first use that does not keep it is a call of a method that cannot be summarized,
* `Setting.summary`: the summary that follows.

A method that is asked for while it is on the way lies on a circle of calls, so it is neither harmless
nor does it fail (`Setting.not_harmless_of_circle`, `Setting.not_fails_of_circle`): the missing answer
has the same effect as the right one. Hence every search gives `Setting.summary`, whatever was kept
before.
-/

namespace Dissolve.Optimize

open List
open Inline (MethodSummary ReceiverUse isReceiverOnly isReturn keepsInside keepsReceiver
  receiverOf? receiverUse)
open Ssa (Function)

variable {α β : Type} {f : Function} {s : Site} {fuel : Nat}
  {ask : MethodRef → Work (Option ReceiverUse)} {before us : List Site} {definition : MethodDef}
  {dest : Option ValueId} {stack : List MethodRef}

/-! ## Uses of the receiver -/

/-- What one use of the receiver says: it keeps the receiver, lets it out, or that depends on what
another method does with its receiver. -/
inductive Reading
  | keeps
  | leaks
  | asks (target : MethodRef) (dest : Option ValueId)

def readingAt (method : MethodRef) (f : Function) (receiver : ValueId) : Site → Reading
  | .phi _ => .leaks
  | .insn i =>
    match (f.insn i).op with
    | .instanceGet .. | .ret _ => .keeps
    | .instancePut _ _ value => if value ≠ receiver then .keeps else .leaks
    | .invoke kind target args =>
      if !isReceiverOnly receiver kind args then .leaks
      else if target.isConstructor && target.holder = TypeRef.root then .keeps
      else if target.holder = method.holder && target ≠ method then .asks target (f.insn i).dest
      else .leaks
    | _ => .leaks

def returnsAt (f : Function) : Site → Bool
  | .phi _ => false
  | .insn i => isReturn (f.insn i).op

section Walk

variable {m : Type → Type} [Monad m] [LawfulMonad m] (ask : MethodRef → m (Option ReceiverUse))
  {method : MethodRef} {receiver : ValueId}

omit [LawfulMonad m] in
lemma keepsInside_eq (i : InsnId) : keepsInside ask method .root f receiver i =
    match readingAt method f receiver (.insn i) with
    | .keeps => pure true
    | .leaks => pure false
    | .asks target dest => return keepsReceiver f dest (← ask target) := by
  rw [keepsInside, readingAt]
  cases (f.insn i).op
  case instancePut field object value => by_cases h : value = receiver <;> simp [h]
  case invoke kind target args =>
    dsimp only
    split
    · rfl
    · split
      · rfl
      · split <;> rfl
  all_goals rfl

lemma receiverUse_cons (returns : Bool) (s : Site) (rest : List Site) :
    receiverUse ask method .root f receiver returns (s :: rest) =
      match readingAt method f receiver s with
      | .keeps => receiverUse ask method .root f receiver (returns || returnsAt f s) rest
      | .leaks => pure ⟨true, returns || returnsAt f s⟩
      | .asks target dest => ask target >>= fun use =>
        if keepsReceiver f dest use then
          receiverUse ask method .root f receiver (returns || returnsAt f s) rest
        else pure ⟨true, returns || returnsAt f s⟩ := by
  cases s with
  | phi p => simp [receiverUse, readingAt, returnsAt]
  | insn i =>
    rw [receiverUse, keepsInside_eq]
    cases readingAt method f receiver (.insn i) with
    | keeps => simp [returnsAt]
    | leaks => simp [returnsAt]
    | asks target dest => simp [returnsAt]

end Walk

namespace Setting

variable (S : Setting)

/-- The function `f` is the body of a method, and `v` is its receiver. -/
structure Opened (method : MethodRef) (f : Function) (v : ValueId) : Prop where
  body : S.body method = .ok (some f)
  receiver : receiverOf? f = some v

def returns (method : MethodRef) : Bool :=
  match S.body method with
  | .ok (some f) => (receiverOf? f).any fun v => (f.value v).users.any (returnsAt f)
  | _ => false

/-- Every use of the receiver keeps it. -/
inductive Harmless : MethodRef → Prop
  | intro {method : MethodRef} {f : Function} {v : ValueId} (opened : S.Opened method f v)
      (within : ∀ s ∈ (f.value v).users, readingAt method f v s ≠ .leaks)
      (asked : ∀ s ∈ (f.value v).users, ∀ target dest, readingAt method f v s = .asks target dest →
        Harmless target)
      (unused : ∀ s ∈ (f.value v).users, ∀ target dest, readingAt method f v s = .asks target dest →
        keepsReceiver f dest (some ⟨false, S.returns target⟩) = true) : Harmless method

/-- One use of the receiver keeps it. -/
def Safe (method : MethodRef) (f : Function) (v : ValueId) (s : Site) : Prop :=
  readingAt method f v s = .keeps ∨ ∃ target dest, readingAt method f v s = .asks target dest ∧
    S.Harmless target ∧ keepsReceiver f dest (some ⟨false, S.returns target⟩) = true

/-- The method cannot be summarized: its body cannot be lifted, or the first use of the receiver that
does not keep it is a call of such a method. -/
inductive Fails : MethodRef → Error → Prop
  | body {method : MethodRef} {e : Error} (failed : S.body method = .error e) : Fails method e
  | call {method target : MethodRef} {f : Function} {v : ValueId} {before rest : List Site} {s : Site}
      {dest : Option ValueId} {e : Error} (opened : S.Opened method f v)
      (users : (f.value v).users = before ++ s :: rest) (safe : ∀ u ∈ before, S.Safe method f v u)
      (asks : readingAt method f v s = .asks target dest) (fails : Fails target e) : Fails method e

/-- A method asks for another one: all uses of the receiver before the call keep it. -/
def Asks (method target : MethodRef) : Prop :=
  ∃ f v before s rest dest, S.Opened method f v ∧ (f.value v).users = before ++ s :: rest ∧
    (∀ u ∈ before, S.Safe method f v u) ∧ readingAt method f v s = .asks target dest

variable {S} {method target : MethodRef} {g : Function} {v w : ValueId} {e e' : Error}

lemma Opened.unique (h : S.Opened method f v) (h' : S.Opened method g w) : f = g ∧ v = w := by
  have hf : f = g := Option.some.inj (Except.ok.inj (h.body.symm.trans h'.body))
  subst hf
  exact ⟨rfl, Option.some.inj (h.receiver.symm.trans h'.receiver)⟩

lemma harmless_iff (h : S.Opened method f v) :
    S.Harmless method ↔ ∀ s ∈ (f.value v).users, S.Safe method f v s := by
  constructor
  · rintro ⟨opened, within, asked, unused⟩ s hs
    obtain ⟨rfl, rfl⟩ := h.unique opened
    cases hr : readingAt method f v s with
    | keeps => exact .inl hr
    | leaks => exact absurd hr (within s hs)
    | asks target dest =>
      exact .inr ⟨target, dest, hr, asked s hs target dest hr, unused s hs target dest hr⟩
  · intro hsafe
    refine .intro h (fun s hs hr => ?_) (fun s hs target dest hr => ?_) fun s hs target dest hr => ?_
    all_goals rcases hsafe s hs with hkeeps | ⟨target', dest', hasks, hharmless, hunused⟩
    · cases hr.symm.trans hkeeps
    · cases hr.symm.trans hasks
    · cases hr.symm.trans hkeeps
    · cases hr.symm.trans hasks
      exact hharmless
    · cases hr.symm.trans hkeeps
    · cases hr.symm.trans hasks
      exact hunused

lemma Harmless.opened (h : S.Harmless method) : ∃ f v, S.Opened method f v := by
  cases h with
  | intro opened => exact ⟨_, _, opened⟩

lemma Fails.not_harmless (h : S.Fails method e) : ¬S.Harmless method := by
  induction h with
  | body failed =>
    intro hh
    obtain ⟨f, v, hopened⟩ := hh.opened
    cases failed.symm.trans hopened.body
  | @call method target f v before rest s dest e opened users safe asks fails ih =>
    intro hh
    rcases (harmless_iff opened).1 hh s (by simp [users]) with hkeeps | ⟨_, _, hasks, hharmless, -⟩
    · cases asks.symm.trans hkeeps
    · cases asks.symm.trans hasks
      exact ih hharmless

lemma first_unsafe_unique {P : Site → Prop} {xs before' rest rest' : List Site} {s' : Site}
    (h : xs = before ++ s :: rest) (h' : xs = before' ++ s' :: rest') (hbefore : ∀ u ∈ before, P u)
    (hbefore' : ∀ u ∈ before', P u) (hs : ¬P s) (hs' : ¬P s') : s = s' := by
  subst h
  rcases append_eq_append_iff.1 h' with ⟨more, rfl, hmore⟩ | ⟨more, rfl, hmore⟩
  · cases more with
    | nil => exact (cons.inj hmore).1
    | cons u more =>
      obtain ⟨rfl, -⟩ := cons.inj hmore
      exact absurd (hbefore' s (by simp)) hs
  · cases more with
    | nil => exact (cons.inj hmore).1.symm
    | cons u more =>
      obtain ⟨rfl, -⟩ := cons.inj hmore
      exact absurd (hbefore s' (by simp)) hs'

lemma not_safe_of_asks (hasks : readingAt method f v s = .asks target dest)
    (hharm : ¬S.Harmless target) : ¬S.Safe method f v s := by
  rintro (hkeeps | ⟨_, _, hasks', hharmless, -⟩)
  · cases hasks.symm.trans hkeeps
  · cases hasks.symm.trans hasks'
    exact hharm hharmless

lemma Fails.unique (h : S.Fails method e) (h' : S.Fails method e') : e = e' := by
  induction h with
  | body failed =>
    cases h' with
    | body failed' => exact Except.error.inj (failed.symm.trans failed')
    | call opened => cases failed.symm.trans opened.body
  | @call method target f v before rest s dest e opened users safe asks fails ih =>
    cases h' with
    | body failed => cases failed.symm.trans opened.body
    | @call _ target' f' v' before' rest' s' dest' _ opened' users' safe' asks' fails' =>
      obtain ⟨rfl, rfl⟩ := opened.unique opened'
      obtain rfl := first_unsafe_unique users users' safe safe'
        (not_safe_of_asks asks fails.not_harmless) (not_safe_of_asks asks' fails'.not_harmless)
      cases asks.symm.trans asks'
      exact ih fails'

/-! ## Circles of calls -/

lemma circle_next {R : MethodRef → MethodRef → Prop} (h : Relation.TransGen R method method) :
    ∃ target, R method target ∧ Relation.TransGen R target target := by
  rcases Relation.TransGen.head'_iff.1 h with ⟨target, hfirst, hrest⟩
  exact ⟨target, hfirst, Relation.TransGen.tail' hrest hfirst⟩

theorem not_harmless_of_circle (h : Relation.TransGen S.Asks method method) :
    ¬S.Harmless method := by
  intro hharmless
  induction hharmless with
  | @intro method f v opened within asked unused ih =>
    obtain ⟨target, hfirst, hcircle⟩ := circle_next h
    obtain ⟨f', v', before, s, rest, dest, hopened, husers, -, hasks⟩ := hfirst
    obtain ⟨rfl, rfl⟩ := opened.unique hopened
    exact ih s (by simp [husers]) target dest hasks hcircle

theorem not_fails_of_circle (h : Relation.TransGen S.Asks method method) : ¬S.Fails method e := by
  intro hfails
  induction hfails with
  | body failed =>
    obtain ⟨target, ⟨f, v, _, _, _, _, hopened, -⟩, -⟩ := circle_next h
    cases failed.symm.trans hopened.body
  | @call method target f v before rest s dest e opened users safe asks fails ih =>
    obtain ⟨target', ⟨f', v', before', s', rest', dest', hopened, husers, hsafe, hasks⟩, hcircle⟩ :=
      circle_next h
    obtain ⟨rfl, rfl⟩ := opened.unique hopened
    obtain rfl := first_unsafe_unique users husers safe hsafe
      (not_safe_of_asks asks fails.not_harmless)
      (not_safe_of_asks hasks (not_harmless_of_circle hcircle))
    cases asks.symm.trans hasks
    exact ih hcircle

/-! ## The summaries of a setting -/

open Classical in
noncomputable def use (S : Setting) (method : MethodRef) : Except Error (Option ReceiverUse) :=
  if h : ∃ e, S.Fails method e then .error h.choose
  else if S.Harmless method then .ok (some ⟨false, S.returns method⟩) else .ok none

noncomputable def summary (S : Setting) (method : MethodRef) :
    Except Error (Option MethodSummary) :=
  match S.program.methodDefinition? method, S.body method with
  | _, .error e => .error e
  | some definition, .ok (some f) => (MethodSummary.analyze S.use definition f .root).map some
  | _, _ => .ok none

lemma use_of_fails (h : S.Fails method e) : S.use method = .error e := by
  have hex : ∃ e, S.Fails method e := ⟨e, h⟩
  rw [use, dif_pos hex, hex.choose_spec.unique h]

lemma use_of_harmless (h : S.Harmless method) :
    S.use method = .ok (some ⟨false, S.returns method⟩) := by
  rw [use, dif_neg fun ⟨_, hfails⟩ => hfails.not_harmless h, if_pos h]

lemma use_of_neither (hharmless : ¬S.Harmless method) (hfails : ∀ e, ¬S.Fails method e) :
    S.use method = .ok none := by
  rw [use, dif_neg fun ⟨e, h⟩ => hfails e h, if_neg hharmless]

lemma safe_of_keeps {o : Option ReceiverUse}
    (hasks : readingAt method f v s = .asks target dest) (huse : S.use target = .ok o)
    (hkeeps : keepsReceiver f dest o) : S.Safe method f v s := by
  by_cases hharmless : S.Harmless target
  · rw [use_of_harmless hharmless] at huse
    cases huse
    exact .inr ⟨target, dest, hasks, hharmless, hkeeps⟩
  · have hfails : ∀ e, ¬S.Fails target e := by
      intro e h
      rw [use_of_fails h] at huse
      cases huse
    rw [use_of_neither hharmless hfails] at huse
    cases huse
    cases hkeeps

/-- How the walk over the users ends: all keep the receiver, or the first that does not is a call of a
method that fails, or it lets the receiver out. -/
inductive Ends (S : Setting) (method : MethodRef) (f : Function) (v : ValueId) (returns : Bool)
    (us : List Site) : Except Error ReceiverUse → Prop
  | kept (safe : ∀ u ∈ us, S.Safe method f v u) :
      Ends S method f v returns us (.ok ⟨false, returns || us.any (returnsAt f)⟩)
  | failed {before rest : List Site} {s : Site} {target : MethodRef} {dest : Option ValueId} {e : Error}
      (users : us = before ++ s :: rest) (safe : ∀ u ∈ before, S.Safe method f v u)
      (asks : readingAt method f v s = .asks target dest) (fails : S.Fails target e) :
      Ends S method f v returns us (.error e)
  | leaked {before rest : List Site} {s : Site} (returned : Bool) (users : us = before ++ s :: rest)
      (safe : ∀ u ∈ before, S.Safe method f v u) (escapes : ¬S.Safe method f v s)
      (answered : ∀ target dest, readingAt method f v s = .asks target dest → ∀ e, ¬S.Fails target e) :
      Ends S method f v returns us (.ok ⟨true, returned⟩)

lemma Ends.cons {returns : Bool} {r : Except Error ReceiverUse}
    (hs : S.Safe method f v s) (h : S.Ends method f v (returns || returnsAt f s) us r) :
    S.Ends method f v returns (s :: us) r := by
  cases h with
  | kept safe =>
    rw [Bool.or_assoc, ← any_cons]
    exact .kept (forall_mem_cons.2 ⟨hs, safe⟩)
  | failed users safe asks fails =>
    exact .failed (by rw [users, cons_append]) (forall_mem_cons.2 ⟨hs, safe⟩) asks fails
  | leaked returned users safe escapes answered =>
    exact .leaked returned (by rw [users, cons_append]) (forall_mem_cons.2 ⟨hs, safe⟩)
      escapes answered

lemma walk_ends (S : Setting) (method : MethodRef) (f : Function) (v : ValueId) (returns : Bool)
    (us : List Site) :
    S.Ends method f v returns us (receiverUse S.use method .root f v returns us) := by
  induction us generalizing returns with
  | nil =>
    have hnil : receiverUse S.use method .root f v returns [] = .ok ⟨false, returns || false⟩ := by
      rw [Bool.or_false]
      rfl
    rw [hnil]
    exact .kept nofun
  | cons s us ih =>
    have hstop : ¬S.Safe method f v s →
        (∀ target dest, readingAt method f v s = .asks target dest → ∀ e, ¬S.Fails target e) →
        ∀ returned, S.Ends method f v returns (s :: us) (.ok ⟨true, returned⟩) :=
      fun hs hanswered returned =>
        .leaked returned (nil_append _).symm (nofun) hs hanswered
    rw [receiverUse_cons]
    cases hr : readingAt method f v s with
    | keeps => exact (ih _).cons (.inl hr)
    | leaks =>
      refine hstop ?_ (fun target dest h => by cases hr.symm.trans h) _
      rintro (h | ⟨_, _, h, -⟩) <;> cases hr.symm.trans h
    | asks target dest =>
      dsimp only
      by_cases hfails : ∃ e, S.Fails target e
      · obtain ⟨e, hfails⟩ := hfails
        rw [use_of_fails hfails]
        exact .failed (nil_append _).symm (nofun) hr hfails
      · have hanswered : ∀ target' dest', readingAt method f v s = .asks target' dest' →
            ∀ e, ¬S.Fails target' e := by
          intro target' dest' h e
          cases hr.symm.trans h
          exact fun hf => hfails ⟨e, hf⟩
        by_cases hharmless : S.Harmless target
        · rw [use_of_harmless hharmless]
          change S.Ends method f v returns (s :: us) (if _ then _ else _)
          split
          · rename_i hkeeps
            exact (ih _).cons (.inr ⟨target, dest, hr, hharmless, hkeeps⟩)
          · rename_i hkeeps
            refine hstop ?_ hanswered _
            rintro (h | ⟨_, _, h, -, hk⟩)
            · cases hr.symm.trans h
            · cases hr.symm.trans h
              exact hkeeps hk
        · rw [use_of_neither hharmless fun e hf => hfails ⟨e, hf⟩]
          exact hstop (not_safe_of_asks hr hharmless) hanswered _

def summarized (definition : MethodDef) (f : Function) (use : ReceiverUse) : MethodSummary where
  method := definition.ref
  leaksReceiver := use.leaks
  returnsReceiver := use.returns
  instructionCount := ((MethodSummary.operations f).filter fun op => !MethodSummary.isParameter op).length
  inlinable := MethodSummary.isInlinable definition f

lemma summary_of_body_error (h : S.body method = .error e) : S.summary method = .error e := by
  rw [summary, h]

lemma summary_of_body_none (h : S.body method = .ok none) : S.summary method = .ok none := by
  rw [summary, h]

lemma summary_of_static (hdef : S.program.methodDefinition? method = some definition)
    (hbody : S.body method = .ok (some f)) (hreceiver : receiverOf? f = none) :
    S.summary method = .ok (some (summarized definition f ⟨true, false⟩)) := by
  rw [summary, hdef, hbody]
  simp only [MethodSummary.analyze, hreceiver]
  rfl

lemma summary_of_opened (hdef : S.program.methodDefinition? method = some definition)
    (h : S.Opened method f v) : S.summary method =
      (receiverUse S.use method .root f v false (f.value v).users).map fun use =>
        some (summarized definition f use) := by
  rw [summary, hdef, h.body]
  obtain rfl := ref_of_definition hdef
  simp only [MethodSummary.analyze, h.receiver]
  cases receiverUse S.use definition.ref .root f v false (f.value v).users <;> rfl

lemma not_harmless_of_not_opened (h : ∀ f v, ¬S.Opened method f v) : ¬S.Harmless method := by
  intro hharmless
  obtain ⟨f, v, hopened⟩ := hharmless.opened
  exact h f v hopened

lemma not_fails_of_not_opened (h : ∀ f v, ¬S.Opened method f v) {o : Option Function}
    (hbody : S.body method = .ok o) : ¬S.Fails method e := by
  rintro (failed | opened)
  · cases failed.symm.trans hbody
  · exact h _ _ opened

lemma keeps_summary (S : Setting) (method : MethodRef) (g : Function) (dest : Option ValueId) :
    (S.summary method).map (fun o => keepsReceiver g dest (o.map MethodSummary.receiver)) =
      (S.use method).map (keepsReceiver g dest) := by
  cases hbody : S.body method with
  | error e => rw [summary_of_body_error hbody, use_of_fails (.body hbody)]; rfl
  | ok o =>
    cases o with
    | none =>
      have hclosed : ∀ f v, ¬S.Opened method f v := fun f v h => by cases hbody.symm.trans h.body
      rw [summary_of_body_none hbody, use_of_neither (not_harmless_of_not_opened hclosed)
        fun e => not_fails_of_not_opened hclosed hbody]
      rfl
    | some f =>
      obtain ⟨definition, hdef, -⟩ := definition_of_body hbody
      cases hreceiver : receiverOf? f with
      | none =>
        have hclosed : ∀ f v, ¬S.Opened method f v := by
          intro f' v h
          cases hbody.symm.trans h.body
          cases hreceiver.symm.trans h.receiver
        rw [summary_of_static hdef hbody hreceiver,
          use_of_neither (not_harmless_of_not_opened hclosed)
            fun e => not_fails_of_not_opened hclosed hbody]
        rfl
      | some v =>
        have hopened : S.Opened method f v := ⟨hbody, hreceiver⟩
        have hends := S.walk_ends method f v false (f.value v).users
        rw [summary_of_opened hdef hopened]
        generalize receiverUse S.use method .root f v false (f.value v).users = r at hends
        cases hends with
        | kept safe =>
          have hreturns : S.returns method = (f.value v).users.any (returnsAt f) := by
            simp [returns, hbody, hreceiver]
          rw [use_of_harmless ((harmless_iff hopened).2 safe), hreturns]
          rfl
        | failed users safe asks fails =>
          rw [use_of_fails (.call hopened users safe asks fails)]
          rfl
        | leaked returned users safe escapes answered =>
          rw [use_of_neither]
          · rfl
          · exact fun hharmless => escapes ((harmless_iff hopened).1 hharmless _ (by simp [users]))
          · rintro e (failed | ⟨opened', users', safe', asks', fails'⟩)
            · cases failed.symm.trans hbody
            · obtain ⟨rfl, rfl⟩ := hopened.unique opened'
              obtain rfl := first_unsafe_unique users users' safe safe' escapes
                (not_safe_of_asks asks' fails'.not_harmless)
              exact answered _ _ asks' _ fails'

end Setting

/-! ## What is kept is right -/

/-- The context has a setting, and the bodies and summaries it keeps are those of the setting. -/
structure Truthful (S : Setting) (c : Context) : Prop where
  setting : c.setting = S
  bodies : ∀ method f, c.bodies.get? method = some f → S.body method = .ok (some f)
  summaries : ∀ method s, c.summaries.get? method = some s → S.summary method = .ok (some s)

variable {S : Setting} {c : Context} {method : MethodRef}

namespace Truthful

lemma insertBody (h : Truthful S c) (hf : S.body method = .ok (some f)) :
    Truthful S { c with bodies := c.bodies.insert method f } := by
  refine ⟨h.setting, fun m g hg => ?_, h.summaries⟩
  rcases Assoc.of_get?_insert hg with ⟨rfl, rfl⟩ | hg
  · exact hf
  · exact h.bodies m g hg

lemma insertSummary (h : Truthful S c) {s : MethodSummary} (hs : S.summary method = .ok (some s)) :
    Truthful S { c with summaries := c.summaries.insert method s } := by
  refine ⟨h.setting, h.bodies, fun m t ht => ?_⟩
  rcases Assoc.of_get?_insert ht with ⟨rfl, rfl⟩ | ht
  · exact hs
  · exact h.summaries m t ht

end Truthful

lemma calleeBody_yields (h : Truthful S c) (method : MethodRef) :
    Yields (calleeBody method) c (S.body method) (Truthful S) := by
  refine .get_bind ?_
  cases hkept : c.bodies.get? method with
  | some f =>
    rw [h.bodies method f hkept]
    exact .pure h
  | none =>
    obtain rfl := h.setting
    unfold Setting.body
    rw [show c.setting.program = c.program from rfl]
    cases hdef : c.program.methodDefinition? method with
    | none => exact .pure h
    | some definition =>
      dsimp only
      split
      · exact .pure h
      · rename_i hcode
        have hlift := liftMethod_yields h definition
        cases hf : c.setting.liftMethod definition with
        | error e =>
          rw [hf] at hlift
          exact hlift.bind_error
        | ok f =>
          rw [hf] at hlift
          refine hlift.bind fun c' hc' => ?_
          have hbody : c.setting.body method = .ok (some f) := by
            simp [Setting.body, show c.setting.program = c.program from rfl, hdef, hcode, hf,
              Except.map]
          exact Yields.bind (.modify (hc'.insertBody hbody)) fun c'' hc'' => .pure hc''

/-! ## Searching -/

/-- What is learned about the method that a walk asks for has the same effect as the right answer. -/
def Answers (S : Setting) (ask : MethodRef → Work (Option ReceiverUse)) (target : MethodRef) : Prop :=
  ∀ c, Truthful S c → ∃ r, Yields (ask target) c r (Truthful S) ∧
    ∀ g dest, r.map (keepsReceiver g dest) = (S.use target).map (keepsReceiver g dest)

lemma receiverUse_yields {v : ValueId} (hopened : S.Opened method f v)
    (hask : ∀ target, S.Asks method target → Answers S ask target)
    (husers : (f.value v).users = before ++ us) (hsafe : ∀ u ∈ before, S.Safe method f v u)
    (h : Truthful S c) (returns : Bool) :
    Yields (receiverUse ask method .root f v returns us) c
      (receiverUse S.use method .root f v returns us) (Truthful S) := by
  induction us generalizing before c returns with
  | nil => exact .pure h
  | cons s us ih =>
    have hgo : S.Safe method f v s → ∀ c, Truthful S c →
        Yields (receiverUse ask method .root f v (returns || returnsAt f s) us) c
          (receiverUse S.use method .root f v (returns || returnsAt f s) us) (Truthful S) := by
      intro hs c hc
      have husers' : (f.value v).users = (before ++ [s]) ++ us := by
        rw [husers, append_assoc]
        rfl
      refine ih husers' ?_ hc _
      intro u hu
      rcases mem_append.1 hu with hu | hu
      · exact hsafe u hu
      · exact mem_singleton.1 hu ▸ hs
    rw [receiverUse_cons, receiverUse_cons]
    cases hr : readingAt method f v s with
    | keeps => exact hgo (.inl hr) c h
    | leaks => exact .pure h
    | asks target dest =>
      dsimp only
      obtain ⟨r, hyields, heffect⟩ := hask target ⟨f, v, before, s, us, dest, hopened, husers, hsafe, hr⟩
        c h
      have heffect := heffect f dest
      cases huse : S.use target with
      | error e =>
        rw [huse] at heffect
        cases r with
        | ok o => cases heffect
        | error e' =>
          cases heffect
          exact hyields.bind_error
      | ok use =>
        rw [huse] at heffect
        cases r with
        | error e' => cases heffect
        | ok o =>
          have hsame := Except.ok.inj heffect
          refine hyields.bind fun c' hc' => ?_
          rw [hsame]
          change Yields _ c' (if _ then _ else _) _
          split
          · rename_i hkeeps
            exact hgo (Setting.safe_of_keeps hr huse hkeeps) c' hc'
          · exact .pure hc'

lemma analyze_yields (hdef : S.program.methodDefinition? method = some definition)
    (hbody : S.body method = .ok (some f))
    (hask : ∀ target, S.Asks method target → Answers S ask target) (h : Truthful S c) :
    ∃ r, Yields (MethodSummary.analyze ask definition f .root) c r (Truthful S) ∧
      S.summary method = r.map some := by
  cases hreceiver : receiverOf? f with
  | none =>
    refine ⟨.ok (Setting.summarized definition f ⟨true, false⟩), ?_,
      Setting.summary_of_static hdef hbody hreceiver⟩
    simp only [MethodSummary.analyze, hreceiver]
    exact Yields.bind (.pure h) fun c' hc' => .pure hc'
  | some v =>
    have hopened : S.Opened method f v := ⟨hbody, hreceiver⟩
    have hwalk := receiverUse_yields hopened hask (nil_append _).symm (nofun) h false
    refine ⟨(receiverUse S.use method .root f v false (f.value v).users).map
      (Setting.summarized definition f), ?_, ?_⟩
    · obtain rfl := ref_of_definition hdef
      simp only [MethodSummary.analyze, hreceiver]
      cases hr : receiverUse S.use definition.ref .root f v false (f.value v).users with
      | error e =>
        rw [hr] at hwalk
        exact hwalk.bind_error
      | ok use =>
        rw [hr] at hwalk
        exact hwalk.bind fun c' hc' => .pure hc'
    · rw [Setting.summary_of_opened hdef hopened]
      cases receiverUse S.use method .root f v false (f.value v).users <;> rfl

/-- The methods on the way to `method`: each asks for the one before it, and none is there twice. -/
structure OnWay (S : Setting) (stack : List MethodRef) (method : MethodRef) : Prop where
  chain : (method :: stack).IsChain fun target asking => S.Asks asking target
  nodup : stack.Nodup

namespace OnWay

variable {target : MethodRef}

section

variable (h : OnWay S stack method)
include h

lemma leads (ht : target ∈ stack) : Relation.TransGen S.Asks target method := by
  have hchain := h.chain.imp fun _ _ hasks => Relation.TransGen.single hasks
  have hpairs := isChain_iff_pairwise.1 hchain
  have hlast := rel_of_pairwise_cons hpairs ht
  rwa [← Relation.transGen_swap] at hlast

lemma circle (hasks : S.Asks method target) (ht : target ∈ method :: stack) :
    Relation.TransGen S.Asks target target := by
  rcases mem_cons.1 ht with rfl | ht
  · exact .single hasks
  · exact (h.leads ht).tail hasks

lemma push (hm : method ∉ stack) (hasks : S.Asks method target) :
    OnWay S (method :: stack) target :=
  ⟨isChain_cons_cons.2 ⟨hasks, h.chain⟩, nodup_cons.2 ⟨hm, h.nodup⟩⟩

/-- Asking for a method on the way has no answer, with the same effect as the right one. -/
lemma answers (hasks : S.Asks method target) (hsearch : ∀ c, Truthful S c →
      ∃ r, Yields (summaryFrom fuel (method :: stack) target) c r (Truthful S) ∧
        (r = S.summary target ∨ target ∈ method :: stack ∧ r = .ok none)) :
    Answers S (fun callee => do
      return (← summaryFrom fuel (method :: stack) callee).map MethodSummary.receiver) target := by
  intro c hc
  obtain ⟨r, hyields, hr⟩ := hsearch c hc
  refine ⟨r.map (Option.map MethodSummary.receiver), ?_, fun g dest => ?_⟩
  · cases r with
    | error e => exact hyields.bind_error
    | ok o => exact hyields.bind fun c' hc' => .pure hc'
  · rcases hr with rfl | ⟨ht, rfl⟩
    · rw [← Setting.keeps_summary]
      cases S.summary target <;> rfl
    · have hcircle := h.circle hasks ht
      rw [Setting.use_of_neither (Setting.not_harmless_of_circle hcircle)
        fun e => Setting.not_fails_of_circle hcircle]
      rfl

end

end OnWay

/-! ## The way is never longer than the program -/

lemma mem_values_of_get? [DecidableEq α] {m : Assoc α β} {k : α} {v : β} (h : m.get? k = some v) :
    v ∈ m.values := by
  obtain ⟨pairs⟩ := m
  induction pairs with
  | nil => cases h
  | cons p pairs ih =>
    obtain ⟨a, b⟩ := p
    rw [Assoc.get?, Assoc.find?] at h
    split at h
    · exact Option.some.inj h ▸ mem_cons_self
    · exact mem_cons_of_mem b (ih h)

def methodRefs (program : Program) : List MethodRef :=
  program.classes.flatMap fun c => c.methods.map MethodDef.ref

lemma length_methodRefs (program : Program) : (methodRefs program).length + 1 =
    (program.classes.map fun c => c.methods.length).foldr (· + ·) 1 := by
  rw [methodRefs]
  induction program.classes with
  | nil => rfl
  | cons c classes ih =>
    rw [flatMap_cons, length_append, length_map, map_cons, foldr_cons, ← ih, Nat.add_assoc]

lemma mem_methodRefs {program : Program}
    (h : program.methodDefinition? method = some definition) : method ∈ methodRefs program := by
  have href := ref_of_definition h
  rw [Program.methodDefinition?, Option.bind_eq_some_iff] at h
  obtain ⟨c, hc, hfound⟩ := h
  refine mem_flatMap.2 ⟨c, ?_, mem_map.2 ⟨definition, mem_of_find?_eq_some hfound, href⟩⟩
  rw [Program.classes, (perm_sortBy _ _).mem_iff]
  exact mem_values_of_get? hc

lemma OnWay.length_le (h : OnWay S stack method) :
    stack.length ≤ (methodRefs S.program).length := by
  refine (subperm_of_subset h.nodup fun target ht => ?_).length_le
  obtain ⟨_, ⟨f, v, _, _, _, _, hopened, -⟩, -⟩ := Relation.TransGen.head'_iff.1 (h.leads ht)
  obtain ⟨definition, hdef, -⟩ := Setting.definition_of_body hopened.body
  exact mem_methodRefs hdef


/-- The search for a summary finds the summary of the setting. Only a method that is on the way already
may be left without an answer. -/
lemma summaryFrom_yields (hway : OnWay S stack method)
    (hfuel : fuel + stack.length = (methodRefs S.program).length + 1) (h : Truthful S c) :
    ∃ r, Yields (summaryFrom fuel stack method) c r (Truthful S) ∧
      (r = S.summary method ∨ method ∈ stack ∧ r = .ok none) := by
  induction fuel generalizing stack method c with
  | zero =>
    have hlength := hway.length_le
    omega
  | succ fuel ih =>
    cases hkept : c.summaries.get? method with
    | some s =>
      refine ⟨.ok (some s), .get_bind ?_, .inl (h.summaries method s hkept).symm⟩
      simp only [hkept]
      exact .pure h
    | none =>
      by_cases hstack : method ∈ stack
      · refine ⟨.ok none, .get_bind ?_, .inr ⟨hstack, rfl⟩⟩
        simp only [hkept, hstack, if_true]
        exact .pure h
      · refine ⟨S.summary method, .get_bind ?_, .inl rfl⟩
        simp only [hkept, hstack, if_false]
        have hcallee := calleeBody_yields h method
        cases hbody : S.body method with
        | error e =>
          rw [hbody] at hcallee
          rw [Setting.summary_of_body_error hbody]
          exact hcallee.bind_error
        | ok o =>
          rw [hbody] at hcallee
          refine hcallee.bind fun c' hc' => ?_
          cases o with
          | none =>
            rw [Setting.summary_of_body_none hbody]
            split
            · rename_i heq
              cases heq
            · exact .pure hc'
          | some f =>
            obtain ⟨definition, hdef, -⟩ := Setting.definition_of_body hbody
            have hprogram : c.program = S.program := congrArg Setting.program h.setting
            simp only [hprogram, hdef]
            obtain ⟨r, hr, hsummary⟩ := analyze_yields hdef hbody (fun target hasks =>
              hway.answers hasks fun c'' hc'' =>
                ih (hway.push hstack hasks) (by rw [length_cons]; omega) hc'') hc'
            rw [hsummary]
            cases r with
            | error e => exact hr.bind_error
            | ok s =>
              refine hr.bind fun c'' hc'' => ?_
              exact Yields.bind (.modify (hc''.insertSummary hsummary)) fun k hk => .pure hk

lemma summary_yields (h : Truthful S c) (method : MethodRef) :
    Yields (summary method) c (S.summary method) (Truthful S) := by
  have hfuel : (c.program.classes.map fun c => c.methods.length).foldr (· + ·) 1 =
      (methodRefs S.program).length + 1 := by
    rw [length_methodRefs, ← h.setting]
    rfl
  obtain ⟨r, hyields, rfl | ⟨hstack, -⟩⟩ := summaryFrom_yields (S := S)
    ⟨isChain_singleton method, nodup_nil⟩ hfuel h
  · exact .get_bind hyields
  · cases hstack

/-! ## Questions one after another -/

def asked (c : Context) (methods : List MethodRef) : Context :=
  methods.foldl (fun c method => after (summary method) c) c

lemma Truthful.asked (h : Truthful S c) (methods : List MethodRef) :
    Truthful S (asked c methods) := by
  induction methods generalizing c with
  | nil => exact h
  | cons method methods ih => exact ih (summary_yields h method).after

lemma truthful_of_empty (hbodies : c.bodies = {}) (hsummaries : c.summaries = {}) :
    Truthful c.setting c := by
  refine ⟨rfl, fun method f hf => ?_, fun method s hs => ?_⟩
  · rw [hbodies] at hf
    cases hf
  · rw [hsummaries] at hs
    cases hs

def Setting.fresh (S : Setting) : Context where
  program := S.program
  config := S.config
  lenses := S.lenses
  currentLens := S.currentLens

/-- Without a change of the lens, every question for a summary gets the answer that a new context
gives, whatever was asked before. -/
theorem summary_asked (c : Context) (lens : Option LensId) (methods : List MethodRef)
    (method : MethodRef) :
    answer (summary method) (asked (c.setLens lens) methods) =
      answer (summary method) (c.setLens lens).setting.fresh := by
  have hreset := truthful_of_empty (c := c.setLens lens) rfl rfl
  have hnew := truthful_of_empty (c := (c.setLens lens).setting.fresh) rfl rfl
  rw [(summary_yields (hreset.asked methods) method).answer, (summary_yields hnew method).answer]
  rfl

end Dissolve.Optimize
