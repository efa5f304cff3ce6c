import Dissolve.Proofs.Semantics.Cleanup

/-!
# Proofs.Semantics.Calls — a call as a run of the called body

`calling f callee call` runs a function in which one call is not a question to the environment: it
runs the body of the callee on the operands of the call and goes on with what the body returns. While
the body runs the caller waits; if the body throws or gets stuck, so does the whole run.

`Inlined f callee call g s` says that `g` is `f` with a copy of the body in the place of the call: the
instructions of the callee stand for those of the copy (`Transcribed`), the parts before and behind the
call are connected with the copy, and what was read from the call is read from the copy.

Main statement: then `g` shows what the caller shows (`Inlined.shows_iff`).
-/

namespace Dissolve.Semantics

open List
open Machine (Ending)
open Ssa (Function Op)
open Ssa.Function

variable {callee g : Function} {v w : ValueId} {last : InsnId} {front js : List InsnId}
  {block : BlockId → BlockId} {exit exit' : Option ValueId → List InsnId → Prop}
  {value : ValueId → ValueId}

/-- A system goes on in a part of another one. -/
def Move.map {ε α ρ σ τ : Type} (k : σ → τ) : Move ε α ρ σ → Move ε α ρ τ
  | .silent s => .silent (k s)
  | .ask question resume => .ask question fun answer => k (resume answer)
  | .halt ending => .halt ending

lemma Move.Matches.map {ε α ρ σ σ' τ : Type} {rel : σ' → τ → Prop} {k : σ → σ'}
    {m : Move ε α ρ σ} {m' : Move ε α ρ τ} (h : m.Matches (fun s t => rel (k s) t) m') :
    (m.map k).Matches rel m' := by
  cases h with
  | silent related => exact .silent related
  | ask related => exact .ask related
  | halt ending => exact .halt ending

/-! ## Running the callee -/

inductive CallState (D : Type)
  | outside (state : State D)
  | inside (rest : List InsnId) (env : ValueId → D) (state : State D)

section Calling

variable {D : Type}

/-- The caller goes on behind the call. -/
def back (f : Function) (call : InsnId) (rest : List InsnId) (env : ValueId → D) (returned : Option D) :
    State D :=
  .running (f.insn call).block rest (returned.elim env (assign env (f.insn call).dest))

/-- What a function does next in which one call runs the body of the callee. The values of the callee
hold `blank` until they are defined. -/
def calling (f callee : Function) (call : InsnId) (blank : D) (params : List D) :
    CallState D → Move (Question D) (Answer D) (Ending D) (CallState D)
  | .outside (.running b (i :: rest) env) =>
    if i = call then .silent (.inside rest env (start callee fun _ => blank))
    else (next f params (.running b (i :: rest) env)).map .outside
  | .outside state => (next f params state).map .outside
  | .inside rest env state =>
    match next callee ((f.insn call).op.operands.map env) state with
    | .halt (.returned d) => .silent (.outside (back f call rest env d))
    | move => move.map (.inside rest env)

lemma calling_inside {f callee : Function} {call i : InsnId} (blank : D) (params : List D) {b : BlockId}
    (rest is : List InsnId) (env cenv : ValueId → D) (hret : (callee.insn i).op.role ≠ .ret) :
    calling f callee call blank params (.inside rest env (.running b (i :: is) cenv)) =
      (next callee ((f.insn call).op.operands.map env) (.running b (i :: is) cenv)).map
        (.inside rest env) := by
  have hne : ∀ d, next callee ((f.insn call).op.operands.map env) (.running b (i :: is) cenv) ≠
      .halt (.returned d) := by
    intro d
    simp only [next]
    split
    case h_4 hrole => exact absurd hrole hret
    case h_5 =>
      unfold throwing
      split
      · simp
      · split <;> simp
    all_goals simp
  simp only [calling]

end Calling

/-! ## Copies of a body -/

/-- A value of the callee that can be read: no return defines it. -/
def Carried (callee : Function) (w : ValueId) : Prop :=
  ∃ site, callee.Defines w site ∧ ∀ i value, site = .insn i → (callee.insn i).op ≠ .ret value

def Named (callee : Function) (w : ValueId) : Prop :=
  ∃ site, callee.Defines w site ∧ ∀ i, site = .insn i →
    (∀ value, (callee.insn i).op ≠ .ret value) ∧ ∀ index, (callee.insn i).op ≠ .argument index

/-- A value of the callee whose operation gives no content. -/
def Barren (callee : Function) (w : ValueId) : Prop :=
  ∃ i, (callee.insn i).dest = some w ∧ (∀ value, (callee.insn i).op ≠ .ret value) ∧
    ((callee.insn i).op.role = .pass ∨ (callee.insn i).op.isTerminator = true)

/-- Reads the result instead of the value of a call. -/
def rebind (dest result : Option ValueId) (v : ValueId) : ValueId :=
  if dest = some v then result.getD v else v

lemma rebind_of_ne {dest result : Option ValueId} (h : dest ≠ some v) : rebind dest result v = v :=
  if_neg h

/-- The instructions `js` of `g` are a copy of instructions of the callee: parameters are left out, and
a return is replaced by instructions that `exit` admits. -/
inductive Transcribed (callee g : Function) (value : ValueId → ValueId) (block : BlockId → BlockId)
    (exit : Option ValueId → List InsnId → Prop) : List InsnId → List InsnId → Prop
  | nil : Transcribed callee g value block exit [] []
  | param {i : InsnId} {is js : List InsnId} {index : Nat}
      (op : (callee.insn i).op = .argument index)
      (more : Transcribed callee g value block exit is js) :
      Transcribed callee g value block exit (i :: is) js
  | copy {i j : InsnId} {is js : List InsnId}
      (op : (g.insn j).op = ((callee.insn i).op.mapOperands value).mapTargets block)
      (dest : (g.insn j).dest = (callee.insn i).dest.map value)
      (param : ∀ index, (callee.insn i).op ≠ .argument index)
      (ret : ∀ returned, (callee.insn i).op ≠ .ret returned)
      (more : Transcribed callee g value block exit is js) :
      Transcribed callee g value block exit (i :: is) (j :: js)
  | leave {i : InsnId} {is js : List InsnId} {returned : Option ValueId}
      (op : (callee.insn i).op = .ret returned) (exits : exit returned js) :
      Transcribed callee g value block exit (i :: is) js

lemma Transcribed.transfer {h : Function} {is more : List InsnId}
    (hcopy : Transcribed callee g value block exit is js)
    (hend : more = [] ∨ ∃ i ∈ is, ∃ v, (callee.insn i).op = .ret v) (hinsn : ∀ i ∈ is, ∀ j ∈ js,
      (g.insn j).op = ((callee.insn i).op.mapOperands value).mapTargets block →
        (h.insn j).op = (g.insn j).op ∧ (h.insn j).dest = (g.insn j).dest)
    (hexit : ∀ v js, exit v js → exit' v (js ++ more)) :
    Transcribed callee h value block exit' is (js ++ more) := by
  induction hcopy with
  | nil =>
    obtain rfl := hend.resolve_right (by simp)
    exact .nil
  | param op _ ih =>
    refine .param op (ih (hend.imp_right ?_) fun i hi => hinsn i (mem_cons_of_mem _ hi))
    rintro ⟨i, hi, v, hv⟩
    refine ⟨i, (mem_cons.1 hi).resolve_left fun heq => ?_, v, hv⟩
    rw [heq, op] at hv
    cases hv
  | copy op dest param ret _ ih =>
    obtain ⟨hop, hdest⟩ := hinsn _ mem_cons_self _ mem_cons_self op
    refine .copy (hop.trans op) (hdest.trans dest) param ret (ih (hend.imp_right ?_)
      fun i hi j hj => hinsn i (mem_cons_of_mem _ hi) j (mem_cons_of_mem _ hj))
    rintro ⟨i, hi, v, hv⟩
    exact ⟨i, (mem_cons.1 hi).resolve_left fun heq => ret v (heq ▸ hv), v, hv⟩
  | leave op exits => exact .leave op (hexit _ _ exits)

section

variable (h : Transcribed callee g value block exit (front ++ [last]) js)
include h

lemma Transcribed.split (hfront : ∀ i ∈ front, (callee.insn i).op.isTerminator = false) :
    ∃ copied out, js = copied ++ out ∧ Transcribed callee g value block exit [last] out ∧
      (∀ j ∈ copied, (g.insn j).op.isTerminator = false) ∧
      ∀ k ∈ front, (∃ index, (callee.insn k).op = .argument index) ∨
        ∃ j ∈ copied, (g.insn j).dest = (callee.insn k).dest.map value := by
  induction front generalizing js with
  | nil => exact ⟨[], js, rfl, h, nofun, nofun⟩
  | cons i front ih =>
    have hfront' := fun k hk => hfront k (mem_cons_of_mem i hk)
    cases h with
    | param op more =>
      obtain ⟨copied, out, rfl, hlast, hcopied, hdests⟩ := ih more hfront'
      exact ⟨copied, out, rfl, hlast, hcopied, forall_mem_cons.2 ⟨.inl ⟨_, op⟩, hdests⟩⟩
    | copy op dest _ _ more =>
      obtain ⟨copied, out, rfl, hlast, hcopied, hdests⟩ := ih more hfront'
      refine ⟨_ :: copied, out, rfl, hlast, forall_mem_cons.2 ⟨?_, hcopied⟩,
        forall_mem_cons.2 ⟨.inr ⟨_, mem_cons_self, dest⟩, fun k hk => ?_⟩⟩
      · rw [op, Op.isTerminator_mapTargets, Op.isTerminator_mapOperands, hfront i mem_cons_self]
      · exact (hdests k hk).imp_right fun ⟨j, hj, hdest⟩ => ⟨j, mem_cons_of_mem _ hj, hdest⟩
    | leave op =>
      have hi := hfront i mem_cons_self
      rw [op] at hi
      cases hi

lemma Transcribed.exits {returned : Option ValueId} (hlast : (callee.insn last).op = .ret returned)
    (hfront : ∀ i ∈ front, (callee.insn i).op.isTerminator = false) :
    ∃ copied out, js = copied ++ out ∧ exit returned out ∧
      (∀ j ∈ copied, (g.insn j).op.isTerminator = false) ∧
      ∀ k ∈ front, (∃ index, (callee.insn k).op = .argument index) ∨
        ∃ j ∈ copied, (g.insn j).dest = (callee.insn k).dest.map value := by
  obtain ⟨copied, out, rfl, hend, hcopied⟩ := h.split hfront
  refine ⟨copied, out, rfl, ?_, hcopied⟩
  cases hend with
  | param op => cases op.symm.trans hlast
  | copy _ _ _ ret => exact absurd hlast (ret _)
  | leave op exits =>
    obtain rfl := Op.ret.inj (op.symm.trans hlast)
    exact exits

lemma Transcribed.ends (hterm : (callee.insn last).op.isTerminator)
    (hret : ∀ returned, (callee.insn last).op ≠ .ret returned)
    (hfront : ∀ i ∈ front, (callee.insn i).op.isTerminator = false) :
    ∃ copied j, js = copied ++ [j] ∧
      (g.insn j).op = ((callee.insn last).op.mapOperands value).mapTargets block ∧
      ∀ j ∈ copied, (g.insn j).op.isTerminator = false := by
  obtain ⟨copied, out, rfl, hend, hcopied, -⟩ := h.split hfront
  cases hend with
  | param op => rw [op] at hterm; cases hterm
  | copy op _ _ _ more =>
    cases more
    exact ⟨copied, _, rfl, op, hcopied⟩
  | leave op => exact absurd op (hret _)

end

/-- How a copy of a body is connected with the caller. -/
structure Seam where
  before : List InsnId
  after : List InsnId
  body : List InsnId
  /-- What stands for the values and blocks of the callee. -/
  value : ValueId → ValueId
  block : BlockId → BlockId
  tail : BlockId
  result : Option ValueId

namespace Seam

def read (s : Seam) (dest : Option ValueId) (v : ValueId) : ValueId :=
  rebind dest s.result v

def behind (s : Seam) (home b : BlockId) : BlockId :=
  if b = home then s.tail else b

/-- From the instructions `js` of a copied block a run comes silently to the instructions behind the
call, with the returned value as the result if the value of the call is read. -/
def Leaves (f callee : Function) (call : InsnId) (g : Function) (s : Seam) (b : BlockId)
    (returned : Option ValueId) (js : List InsnId) : Prop :=
  ∀ (D : Type) (params : List D) (env : ValueId → D), ∃ n env',
    Glides (next g params) n (.running (s.block b) js env) (.running s.tail s.after env') ∧
      (∀ v : ValueId, v.index < f.values.size → env' v = env v) ∧
      (∀ w, Carried callee w → env' (s.value w) = env (s.value w)) ∧
      ∀ d, (f.insn call).dest = some d → (∀ site, ¬f.Reads d site) ∨
        ∃ r u, s.result = some r ∧ returned = some u ∧ env' r = env (s.value u)

/-- The instructions `js` of `g` are a copy of instructions of a block of the callee, where a return
leads behind the call. -/
def Transcribed (f callee : Function) (call : InsnId) (g : Function) (s : Seam) (b : BlockId) :
    List InsnId → List InsnId → Prop :=
  Semantics.Transcribed callee g s.value s.block (s.Leaves f callee call g b)

end Seam

/-- The function `g` is `f` with a copy of the callee in the place of a call. -/
structure Inlined (f callee : Function) (call : InsnId) (g : Function) (s : Seam) : Prop where
  home : (f.block (f.insn call).block).insns = s.before ++ call :: s.after
  uncovered : (f.block (f.insn call).block).handlers = []
  tail : s.tail = (f.insn call).block ∨ f.blocks.size ≤ s.tail.index
  entry : (callee.block callee.entry).phis = []
  -- the caller
  head : (g.block (f.insn call).block).insns = s.before ++ s.body
  head_handlers : (g.block (f.insn call).block).handlers = []
  tail_handlers : (g.block s.tail).handlers = []
  insns : ∀ b, (f.block b).removed = false → b ≠ (f.insn call).block →
    (g.block b).insns = (f.block b).insns
  handlers : ∀ b, (f.block b).removed = false → b ≠ (f.insn call).block →
    (g.block b).handlers = (f.block b).handlers
  successors : ∀ b, (f.block b).removed = false →
    g.successors (s.behind (f.insn call).block b) = f.successors b
  predecessors : ∀ b, (f.block b).removed = false →
    g.predecessors b = (f.predecessors b).map (s.behind (f.insn call).block)
  phis : ∀ b, (f.block b).removed = false → (g.block b).phis = (f.block b).phis
  phi_value : ∀ q, (f.phi q).removed = false → (g.phi q).value = (f.phi q).value
  phi_operands : ∀ q, (f.phi q).removed = false →
    (g.phi q).operands = (f.phi q).operands.map (s.read (f.insn call).dest)
  op : ∀ i, (f.insn i).removed = false → i ≠ call →
    (g.insn i).op = (f.insn i).op.mapOperands (s.read (f.insn call).dest)
  dest : ∀ i, (f.insn i).removed = false → i ≠ call → (g.insn i).dest = (f.insn i).dest
  -- the result
  result : ∀ r, s.result = some r → f.values.size ≤ r.index ∨
    r ∈ (f.insn call).op.operands ∧ (f.insn call).dest ≠ some r
  -- the copy
  plain : ∀ b, (callee.block b).handlers = []
  copy_plain : ∀ b, (callee.block b).removed = false → (g.block (s.block b)).handlers = []
  passed : (∃ t, f.Trail ((f.insn call).block :: t)) → ∀ i index w,
    (callee.insn i).op = .argument index → (callee.insn i).dest = some w →
      (f.insn call).op.operands[index]? = some (s.value w)
  fresh : ∀ w, Named callee w → f.values.size ≤ (s.value w).index
  inj : ∀ w w', Named callee w → Carried callee w' → s.value w = s.value w' → w = w'
  block_inj : ∀ a b, (callee.block a).removed = false → (callee.block b).removed = false →
    s.block a = s.block b → a = b
  copy_successors : ∀ b, (callee.block b).removed = false → callee.successors b ≠ [] →
    g.successors (s.block b) = (callee.successors b).map s.block
  copy_predecessors : ∀ b, callee.predecessors b ≠ [] →
    g.predecessors (s.block b) = (callee.predecessors b).map s.block
  copy_insns : (∃ t, f.Trail ((f.insn call).block :: t)) → ∀ b, callee.predecessors b ≠ [] →
    s.Transcribed f callee call g b (callee.block b).insns (g.block (s.block b)).insns
  copy_phis : (∃ t, f.Trail ((f.insn call).block :: t)) → ∀ b, callee.predecessors b ≠ [] →
    ∃ phi : PhiId → PhiId,
    (g.block (s.block b)).phis = (callee.block b).phis.map phi ∧
      ∀ q ∈ (callee.block b).phis, (g.phi (phi q)).value = s.value (callee.phi q).value ∧
        (g.phi (phi q)).operands = (callee.phi q).operands.map s.value
  enters : (∃ t, f.Trail ((f.insn call).block :: t)) → ∃ js, s.Transcribed f callee call g callee.entry (callee.block callee.entry).insns js ∧
    ∀ (D : Type) (params : List D) (env : ValueId → D), ∃ n,
      Glides (next g params) n (.running (f.insn call).block s.body env)
        (.running (s.block callee.entry) js env)

/-! ## The simulation -/

section Simulation

variable {D : Type} {f : Function} {call i : InsnId} {s : Seam} {blank : D}

lemma Barren.named (h : Barren callee w) : Named callee w := by
  obtain ⟨i, hdest, hret, hvoid⟩ := h
  refine ⟨.insn i, hdest, ?_⟩
  rintro j hj
  obtain rfl := Site.insn.inj hj
  refine ⟨hret, fun index hop => ?_⟩
  rw [hop] at hvoid
  rcases hvoid with hrole | hterm
  · exact Op.Role.noConfusion hrole
  · exact Bool.noConfusion hterm

lemma Named.carried (h : Named callee w) : Carried callee w := by
  obtain ⟨site, hsite, hop⟩ := h
  exact ⟨site, hsite, fun i value hi => (hop i hi).1 value⟩

lemma Barren.ne (h : Barren callee v) (hc : callee.Exact) (hdest : (callee.insn i).dest = some w)
    (hrole : (callee.insn i).op.role ≠ .pass) (hterm : (callee.insn i).op.isTerminator = false) :
    v ≠ w := by
  rintro rfl
  obtain ⟨k, hk, -, hvoid⟩ := h
  obtain rfl := hc.insn_unique hk hdest
  simp [hrole, hterm] at hvoid

lemma carried_of_availBefore (hc : callee.WellFormed) {b : BlockId} {before rest : List InsnId}
    {t : List BlockId} (ht : callee.Trail (b :: t)) (hplain : ∀ b, (callee.block b).handlers = [])
    (hb : (callee.block b).insns = before ++ i :: rest) (hw : callee.AvailBefore w b before) :
    Carried callee w := by
  have hf := hc.exact
  -- a return has no instruction and no block behind it
  have hlast : ∀ k value, (callee.insn k).op = .ret value → (callee.insn k).dest = some w →
      (∃ j ∈ before, (callee.insn j).dest = some w) ∨
        (∃ e ∈ t, callee.definingBlock? w = some e) → False := by
    rintro k value hop hdest (⟨j, hj, hjw⟩ | ⟨e, he, hdef⟩)
    · obtain rfl := hf.insn_unique hjw hdest
      obtain ⟨front, back, rfl⟩ := append_of_mem hj
      have hsplit : (callee.block b).insns = front ++ j :: (back ++ i :: rest) := by simp [hb]
      have hrest := hc.rest_of_terminator hsplit (by rw [hop]; rfl)
      simp at hrest
    · rw [hf.definingBlock?_of_dest hdest] at hdef
      obtain rfl := Option.some.inj hdef
      obtain ⟨c, hpred⟩ : ∃ c, (callee.insn k).block ∈ callee.predecessors c := by
        clear hb hw hdef
        induction t generalizing b with
        | nil => cases he
        | cons p t ih =>
          rcases mem_cons.1 he with heq | he
          · exact ⟨b, heq ▸ ht.edge⟩
          · exact ih ht.tail he
      have hsucc := hc.mem_successors_iff.2 hpred
      obtain ⟨front, back, hsplit⟩ := hf.exists_split (hf.live_of_dest hdest)
      obtain rfl := hc.rest_of_terminator hsplit (by rw [hop]; rfl)
      have hterm : callee.terminator? (callee.insn k).block = some k := by
        simp [terminator?, hsplit, hop, Op.isTerminator]
      simp [successors, normalSuccessors, hterm, hop, Op.targets, hplain] at hsucc
  have hdef : ∃ site, (callee.value w).definition = some site := by
    rcases hw with ⟨j, -, hj⟩ | hstart
    · exact ⟨_, (hf.definition_iff w (.insn j)).2 hj⟩
    · rcases hstart t ht with ⟨e, -, he⟩ | ⟨q, hq, -⟩
      · rw [definingBlock?_eq] at he
        obtain ⟨site, hsite, -⟩ := Option.map_eq_some_iff.1 he
        exact ⟨site, hsite⟩
      · exact ⟨_, hq⟩
  obtain ⟨site, hsite⟩ := hdef
  refine ⟨site, (hf.definition_iff w site).1 hsite, ?_⟩
  rintro k value rfl hop
  have hdest : (callee.insn k).dest = some w := (hf.definition_iff w (.insn k)).1 hsite
  refine hlast k value hop hdest ?_
  rcases hw with hw | hstart
  · exact .inl hw
  · rcases hstart t ht with he | ⟨q, hq, -⟩
    · exact .inr he
    · exact absurd ⟨q, hq, rfl⟩ (hf.not_isPhiOf hdest)

/-- The contents of the caller's values, and of the values that nothing gives a content. -/
structure Beside (f callee : Function) (call : InsnId) (s : Seam) (blank : D)
    (env env' : ValueId → D) : Prop where
  old : ∀ v : ValueId, v.index < f.values.size → (f.insn call).dest ≠ some v → env' v = env v
  barren : ∀ w, Barren callee w → env' (s.value w) = blank

/-- The contents in the caller behind the instructions `before` of a block. -/
structure Mirrors (f callee : Function) (call : InsnId) (s : Seam) (blank : D) (b : BlockId)
    (before : List InsnId) (env env' : ValueId → D) : Prop extends
    Beside f callee call s blank env env' where
  result : ∀ d, (f.insn call).dest = some d → f.AvailBefore d b before →
    (∀ site, ¬f.Reads d site) ∨ ∃ r, s.result = some r ∧ env' r = env d

/-- The contents in the callee and in its copy behind the instructions `before` of a block. -/
structure Echoes (f callee : Function) (call : InsnId) (s : Seam) (blank : D) (b : BlockId)
    (before : List InsnId) (env env' cenv : ValueId → D) : Prop extends
    Beside f callee call s blank env env' where
  blanks : ∀ w, Barren callee w → cenv w = blank
  contents : ∀ w, callee.AvailBefore w b before → env' (s.value w) = cenv w

namespace Inlined

variable {b c : BlockId} {before rest : List InsnId} {env env' : ValueId → D} {t : List BlockId}
  {slot : Nat}

lemma ne_value (h : Inlined f callee call g s) (hv : f.HasValue v)
    (hw : Named callee w) : v ≠ s.value w := by
  rintro rfl
  exact absurd (h.fresh w hw) (by omega)

lemma lt_of_dest (hf : f.WellFormed) (hd : (f.insn i).dest = some v) : f.HasValue v :=
  f.lt_values_of_definition ((hf.exact.definition_iff v (.insn i)).2 hd)

lemma pass (hf : f.WellFormed) (hm : Mirrors f callee call s blank b before env env')
    (hi : i ≠ call) : Mirrors f callee call s blank b (before ++ [i]) env env' :=
  ⟨hm.toBeside, fun d hd hav => hm.result d hd
    (hav.snoc_cases.resolve_left fun hdest => hi (hf.exact.insn_unique hdest hd))⟩

section Caller

variable (h : Inlined f callee call g s) (hf : f.WellFormed)
include h hf

lemma not_mem : call ∉ s.before ∧ call ∉ s.after :=
  hf.exact.not_mem_of_split h.home

lemma precedes {d r : ValueId} (hd : (f.insn call).dest = some d) (hr : s.result = some r) (hold : f.HasValue r) :
    Precedes f r d := by
  have hdef := (hf.exact.definition_iff d (.insn call)).2 hd
  obtain ⟨hmem, hne⟩ := (h.result r hr).resolve_left (by omega)
  refine ⟨fun heq => hne (heq ▸ hd), ?_, ?_⟩
  · intro q hq
    exact absurd ⟨q, hq, rfl⟩ (hf.exact.not_isPhiOf hd)
  · intro k hk front back hsplit
    obtain rfl := Site.insn.inj (Option.some.inj (hk.symm.trans hdef))
    exact hf.flow.insn_avail _ front k back hsplit r hmem

omit h in
lemma read_eq (hm : Mirrors f callee call s blank b before env env') {site : Site}
    (hread : f.Reads v site) (hav : (f.insn call).dest = some v → f.AvailBefore v b before) :
    env' (s.read (f.insn call).dest v) = env v := by
  rw [Seam.read, rebind]
  split
  · rename_i hd
    rcases hm.result v hd (hav hd) with hunread | ⟨r, hr, heq⟩
    · exact absurd hread (hunread site)
    · rw [hr]
      exact heq
  · rename_i hd
    exact hm.old v (hf.exact.lt_of_reads hread) hd

lemma assign (ht : f.Trail (b :: t)) (hm : Mirrors f callee call s blank b before env env')
    (hb : (f.block b).insns = before ++ i :: rest) (hi : i ≠ call) (content : D) :
    Mirrors f callee call s blank b (before ++ [i]) (Semantics.assign env (f.insn i).dest content)
      (Semantics.assign env' (f.insn i).dest content) := by
  cases hdest : (f.insn i).dest with
  | none => exact pass hf hm hi
  | some w =>
    refine ⟨⟨fun v hv hne => assign_congr (hm.old v hv hne), fun u hu => ?_⟩, fun d hd hav => ?_⟩
    · rw [Semantics.assign, Function.update_of_ne (h.ne_value (lt_of_dest hf hdest) hu.named).symm]
      exact hm.barren u hu
    · refine ((pass hf hm hi).result d hd hav).imp_right ?_
      rintro ⟨r, hr, heq⟩
      refine ⟨r, hr, ?_⟩
      have hwd : w ≠ d := fun heq => hi (hf.exact.insn_unique (heq ▸ hdest) hd)
      have hwr : w ≠ r := by
        intro heq
        have hold := heq ▸ lt_of_dest hf hdest
        exact (h.precedes hf hd hr hold).not_availBefore hf.exact ht hb (heq ▸ hdest) hav
      rw [Semantics.assign, Semantics.assign, Function.update_of_ne hwr.symm,
        Function.update_of_ne hwd.symm, heq]

lemma merged_of_not_phi (hlive : f.LiveBlock c) (hv : ¬f.IsPhiOf v c) :
    Semantics.merged g c slot env' v = env' v := by
  refine merged_of_ne fun q hq heq => hv ?_
  rw [h.phis c hlive] at hq
  obtain ⟨hq', hblock⟩ := (hf.exact.phis_iff c q).1 hq
  rw [h.phi_value q hq'] at heq
  exact ⟨q, (hf.exact.definition_iff v (.phi q)).2 ⟨hq', heq⟩, hblock⟩

lemma merged (ht : f.Trail (b :: t)) (hm : Mirrors f callee call s blank b before env env')
    (hslot : (f.predecessors c)[slot]? = some b)
    (hend : ∀ d, (f.insn call).dest = some d → f.AvailEnd d b → f.AvailBefore d b before) :
    Mirrors f callee call s blank c [] (Semantics.merged f c slot env)
      (Semantics.merged g c slot env') := by
  have hpred : b ∈ f.predecessors c := mem_of_getElem? hslot
  have hlive := hf.live_of_pred hpred
  have hexact := hf.exact
  have hold : ∀ v, f.IsPhiOf v c → f.HasValue v := by
    rintro v ⟨q, hq, -⟩
    exact f.lt_values_of_definition hq
  refine ⟨⟨fun v hv hne => ?_, fun w hw => ?_⟩, fun d hd hav => ?_⟩
  · have hphis := h.phis c hlive
    have hvalue := fun q hq => h.phi_value q ((hexact.phis_iff c q).1 hq).1
    refine merged_eq_merged hf.flow hslot (fun q hq heq => ⟨q, hphis ▸ hq, (hvalue q hq).trans heq⟩)
      (fun q hq heq => ?_) (fun _ => hm.old v hv hne)
      fun q _ _ u hu hav => read_eq hf hm (show f.Reads u (.phi q) from hu) fun hd => hend u hd hav
    rw [hphis] at hq
    exact ⟨q, hq, (hvalue q hq).symm.trans heq, h.phi_operands q ((hexact.phis_iff c q).1 hq).1⟩
  · have hnot : ¬f.IsPhiOf (s.value w) c := fun hphi =>
      h.ne_value (hold _ hphi) hw.named rfl
    rw [h.merged_of_not_phi hf hlive hnot]
    exact hm.barren w hw
  · have hstart : f.AvailStart d c := by
      rcases hav with ⟨j, hj, -⟩ | hstart
      · cases hj
      · exact hstart
    have hd' : ¬f.IsPhiOf d c := hexact.not_isPhiOf hd
    refine (hm.result d hd (hend d hd (hstart.at_pred hd' hpred))).imp_right ?_
    rintro ⟨r, hr, heq⟩
    have hr' : ¬f.IsPhiOf r c := fun hphi => (h.precedes hf hd hr (hold r hphi)).not_availStart
      hexact (.step ht hpred) hphi.definingBlock? hstart
    exact ⟨r, hr, by rw [h.merged_of_not_phi hf hlive hr', merged_of_not_isPhiOf hexact hd', heq]⟩

end Caller

end Inlined

/-- Where a place of the caller stands in `g`, with the instructions that follow. -/
inductive Stands (f : Function) (call : InsnId) (s : Seam) :
    BlockId → List InsnId → BlockId → List InsnId → Prop
  | ahead (mid : List InsnId) : Stands f call s (f.insn call).block (mid ++ call :: s.after)
      (f.insn call).block (mid ++ s.body)
  | apart {b : BlockId} {rest : List InsnId} (away : b ≠ (f.insn call).block)
      (clear : call ∉ rest) : Stands f call s b rest b rest
  | behind {rest : List InsnId} (clear : call ∉ rest) :
      Stands f call s (f.insn call).block rest s.tail rest

namespace Stands

variable {b c : BlockId} {rest : List InsnId}

lemma cons (h : Stands f call s b (i :: rest) c js) (hi : i ≠ call) :
    ∃ js', js = i :: js' ∧ Stands f call s b rest c js' := by
  generalize hrest : i :: rest = rest' at h
  cases h with
  | ahead mid =>
    cases mid with
    | nil => exact absurd (cons.inj hrest).1 hi
    | cons k mid =>
      obtain ⟨rfl, rfl⟩ := cons.inj hrest
      exact ⟨_, rfl, .ahead mid⟩
  | apart away clear =>
    subst hrest
    exact ⟨rest, rfl, .apart away fun hmem => clear (mem_cons_of_mem _ hmem)⟩
  | behind clear =>
    subst hrest
    exact ⟨rest, rfl, .behind fun hmem => clear (mem_cons_of_mem _ hmem)⟩

lemma at_call (h : Stands f call s b (call :: rest) c js) (hclear : call ∉ rest) :
    b = (f.insn call).block ∧ c = (f.insn call).block ∧ rest = s.after ∧ js = s.body := by
  generalize hrest : call :: rest = rest' at h
  cases h with
  | ahead mid =>
    cases mid with
    | nil => exact ⟨rfl, rfl, (cons.inj hrest).2, rfl⟩
    | cons k mid =>
      obtain ⟨-, rfl⟩ := cons.inj hrest
      exact absurd (by simp) hclear
  | apart _ clear | behind clear => exact absurd (hrest ▸ mem_cons_self) clear

lemma nil (h : Stands f call s b [] c js) : js = [] ∧ c = s.behind (f.insn call).block b := by
  generalize hrest : ([] : List InsnId) = rest' at h
  cases h with
  | ahead mid => simp at hrest
  | apart away => exact ⟨rfl, (if_neg away).symm⟩
  | behind => exact ⟨rfl, (if_pos rfl).symm⟩

lemma covered (h : Stands f call s b rest c js) (hb : b ≠ (f.insn call).block) : c = b := by
  cases h with
  | ahead => exact absurd rfl hb
  | apart => rfl
  | behind => exact absurd rfl hb

end Stands

/-- States of the caller and of `g` correspond. -/
inductive Corresponds (f callee : Function) (call : InsnId) (g : Function) (s : Seam) (blank : D) :
    CallState D → State D → Prop
  | outside {b c : BlockId} {before rest js : List InsnId} {env env' : ValueId → D}
      (reached : ∃ t, f.Trail (b :: t)) (here : (f.block b).insns = before ++ rest)
      (stands : Stands f call s b rest c js)
      (contents : Mirrors f callee call s blank b before env env') :
      Corresponds f callee call g s blank (.outside (.running b rest env)) (.running c js env')
  | inside {b : BlockId} {before rest js : List InsnId} {env env' cenv : ValueId → D}
      (home : ∃ t, f.Trail ((f.insn call).block :: t)) (reached : ∃ t, callee.Trail (b :: t))
      (here : (callee.block b).insns = before ++ rest)
      (copied : s.Transcribed f callee call g b rest js)
      (contents : Echoes f callee call s blank b before env env' cenv) :
      Corresponds f callee call g s blank (.inside s.after env (.running b rest cenv))
        (.running (s.block b) js env')
  | ended (ending : Ending D) :
      Corresponds f callee call g s blank (.outside (.ended ending)) (.ended ending)
  | stopped {env : ValueId → D} {ending : Ending D} (other : ∀ d, ending ≠ .returned d) :
      Corresponds f callee call g s blank (.inside s.after env (.ended ending)) (.ended ending)

/-- The instructions that are left, where the call counts as what it stands for. -/
def left (callee : Function) (call : InsnId) : CallState D → Nat
  | .outside (.running _ rest _) =>
    rest.length + if call ∈ rest then (callee.block callee.entry).insns.length + 1 else 0
  | .inside rest _ (.running _ crest _) => crest.length + rest.length + 1
  | _ => 0

namespace Inlined

variable {b c a : BlockId} {before rest : List InsnId} {env env' : ValueId → D} {params : List D}
  {n : Nat}

/-! ### The caller -/

lemma mem_home (hf : f.WellFormed) (hmem : call ∈ (f.block b).insns) : b = (f.insn call).block :=
  ((hf.exact.insns_iff b call).1 hmem).2.symm

lemma behind_inj (h : Inlined f callee call g s) (ha : f.HasBlock a)
    (heq : s.behind (f.insn call).block a = s.behind (f.insn call).block b) (hb : f.HasBlock b) :
    a = b := by
  unfold Seam.behind at heq
  rcases h.tail with htail | htail
  · rw [htail] at heq
    split at heq <;> split at heq <;> simp_all
  · split at heq <;> split at heq
    · simp_all
    · rw [heq] at htail
      omega
    · rw [← heq] at htail
      omega
    · exact heq

lemma home_plain (h : Inlined f callee call g s) (hs : Stands f call s b rest c js)
    (hb : b = (f.insn call).block) : (g.block c).handlers = [] := by
  cases hs with
  | ahead => exact h.head_handlers
  | apart away => exact absurd hb away
  | behind => exact h.tail_handlers

lemma op_eq (h : Inlined f callee call g s) (hf : f.WellFormed)
    (hb : (f.block b).insns = before ++ i :: rest) (hi : i ≠ call) :
    (g.insn i).op = (f.insn i).op.mapOperands (s.read (f.insn call).dest) ∧
      (g.insn i).dest = (f.insn i).dest :=
  have hlive := (hf.exact.of_split hb).1
  ⟨h.op i hlive hi, h.dest i hlive hi⟩

section Caller

variable (h : Inlined f callee call g s) (hf : f.WellFormed) (hreach : ∃ t, f.Trail (b :: t))
  (hm : Mirrors f callee call s blank b before env env')
include h hf hreach hm

lemma follow (hlive : f.LiveBlock b) (hcall : b = (f.insn call).block → call ∈ before) :
    Corresponds f callee call g s blank (.outside (Semantics.follow f b n env))
      (Semantics.follow g (s.behind (f.insn call).block b) n env') := by
  have hexact := hf.exact
  rcases follow_map (b := b) hf id (s.behind (f.insn call).block) (by rw [h.successors b hlive, map_id])
      (fun _ _ _ _ heq => heq) (fun c hc => h.predecessors c (hf.live_of_pred hc))
      (fun p hp heq => h.behind_inj (f.lt_blocks_of_live hp) heq (f.lt_blocks_of_live hlive))
      n env env' with ⟨hstuck, hstuck'⟩ | ⟨c, slot, hslot, hfollow, hfollow'⟩
  · rw [hstuck, hstuck']
    exact .ended _
  obtain ⟨t, ht⟩ := hreach
  have hpred : b ∈ f.predecessors c := mem_of_getElem? hslot
  have hlivec := hf.live_of_pred hpred
  rw [hfollow, hfollow', id]
  refine .outside ⟨_, .step ht hpred⟩ (nil_append _).symm ?_ (h.merged hf ht hm hslot ?_)
  · by_cases hc : c = (f.insn call).block
    · subst hc
      rw [h.home, h.head]
      exact .ahead s.before
    · rw [h.insns c hlivec hc]
      exact .apart hc fun hmem => hc (mem_home hf hmem)
  · intro d hd hav
    rcases hav.before hexact (by rw [(hexact.definition_iff d (.insn call)).2 hd]; rfl) with
      ⟨j, hj, hjd⟩ | hstart
    · obtain rfl := hexact.insn_unique hjd hd
      exact .inl ⟨j, hcall (mem_home hf hj), hd⟩
    · exact .inr hstart

section

variable (hb : (f.block b).insns = before ++ i :: rest)
include hb

lemma leave (hs : Stands f call s b (i :: rest) c js)
    (hi : i ≠ call) (hterm : (f.insn i).op.isTerminator) :
    Corresponds f callee call g s blank (.outside (Semantics.follow f b n env))
      (Semantics.follow g c n env') := by
  obtain rfl := hf.rest_of_terminator hb hterm
  obtain ⟨js', -, hs'⟩ := hs.cons hi
  rw [hs'.nil.2]
  refine h.follow hf hreach hm (hf.orderly.live_of_split hb) fun hhome => ?_
  have hmem : call ∈ (f.block b).insns := by rw [hhome, h.home]; simp
  rw [hb] at hmem
  rcases mem_append.1 hmem with hmem | hmem
  · exact hmem
  · exact absurd (mem_singleton.1 hmem).symm hi

lemma outside_step (hs : Stands f call s b (i :: rest) c js) (hi : i ≠ call) :
    ((next f params (.running b (i :: rest) env)).map CallState.outside).Matches
      (Corresponds f callee call g s blank) (next g params (.running c js env')) := by
  obtain ⟨js, rfl, hs'⟩ := hs.cons hi
  obtain ⟨hop, hdest⟩ := h.op_eq hf hb hi
  have hlive := hf.orderly.live_of_split hb
  have hnext : (f.block b).insns = (before ++ [i]) ++ rest := by simp [hb]
  have hcovered : b ≠ (f.insn call).block → (g.block c).handlers = (f.block b).handlers ∧
      g.successors c = f.successors b := by
    intro hhome
    have hsucc := h.successors b hlive
    rw [Seam.behind, if_neg hhome] at hsucc
    rw [hs.covered hhome]
    exact ⟨h.handlers b hlive hhome, hsucc⟩
  refine .map (Doubles.step ⟨⟨_, id, by rw [Op.mapTargets_id, hop], fun v hv => ?_⟩, by rw [hdest], ?_,
    fun _ => .outside hreach hnext hs' (pass hf hm hi), fun _ _ d => ?_,
    fun hterm n _ => h.leave hf hreach hm hb hs hi hterm, fun k hk => ?_,
    fun ending _ => .ended ending⟩ fun _ _ => rfl)
  · exact read_eq hf hm (show f.Reads v (.insn i) from hv) fun _ =>
      hf.flow.insn_avail b before i rest hb v hv
  · by_cases hhome : b = (f.insn call).block
    · rw [h.home_plain hs hhome, hhome, h.uncovered]
    · rw [(hcovered hhome).1]
  · obtain ⟨t, ht⟩ := hreach
    rw [hdest]
    exact .outside ⟨t, ht⟩ hnext hs' (h.assign hf ht hm hb hi d)
  · have hhome : b ≠ (f.insn call).block := by
      rintro rfl
      simp [h.uncovered] at hk
    obtain ⟨hhandlers, hsucc⟩ := hcovered hhome
    obtain rfl := hs.covered hhome
    have hnormal : (g.normalSuccessors c).length = (f.normalSuccessors c).length := by
      have hlen := congrArg length hsucc
      simp only [Ssa.Function.successors, length_append, length_map, hhandlers] at hlen
      omega
    have hfollow := h.follow hf hreach hm hlive (n := (f.normalSuccessors c).length + k)
      fun heq => absurd heq hhome
    rw [hnormal]
    rwa [Seam.behind, if_neg hhome] at hfollow

end

end Caller

end Inlined

/-! ### The callee -/

namespace Inlined

variable {b c : BlockId} {before rest : List InsnId} {j : InsnId} {env env' cenv : ValueId → D}
  {params : List D} {n slot : Nat} {t : List BlockId}

section

variable (hc : callee.WellFormed)
include hc

lemma defined_of_carried (hw : Carried callee w) : (callee.value w).definition.isSome := by
  obtain ⟨site, hsite, -⟩ := hw
  rw [(hc.exact.definition_iff w site).2 hsite]
  rfl

lemma named_phi {q : PhiId} (hq : q ∈ (callee.block c).phis) : Named callee (callee.phi q).value :=
  ⟨.phi q, ⟨((hc.exact.phis_iff c q).1 hq).1, rfl⟩, fun _ hi => Site.noConfusion hi⟩

lemma ne_of_barren (hw : Barren callee w) {q : PhiId} (hq : q ∈ (callee.block c).phis) :
    (callee.phi q).value ≠ w := by
  rintro rfl
  obtain ⟨i, hdest, -⟩ := hw
  exact hc.exact.not_isPhiOf hdest (hc.exact.isPhiOf_phi ((hc.exact.phis_iff c q).1 hq).1)

end

section Callee

variable (h : Inlined f callee call g s) (hc : callee.WellFormed)
  (hhome : ∃ t, f.Trail ((f.insn call).block :: t))
include h hc hhome

omit hc in
lemma copy_merged_of_ne (hpreds : callee.predecessors c ≠ [])
    (hv : ∀ q ∈ (callee.block c).phis, s.value (callee.phi q).value ≠ v) :
    Semantics.merged g (s.block c) slot env' v = env' v := by
  obtain ⟨phi, hphis, hphi⟩ := h.copy_phis hhome c hpreds
  refine merged_of_ne fun p hp heq => ?_
  obtain ⟨q, hq, rfl⟩ := mem_map.1 (hphis ▸ hp)
  exact hv q hq ((hphi q hq).1.symm.trans heq)

section

variable (hreach : ∃ t, callee.Trail (b :: t))
include hreach

lemma inside_follow
    (hb : (callee.block b).insns = before ++ [i]) (hterm : (callee.insn i).op.isTerminator)
    (hret : ∀ value, (callee.insn i).op ≠ .ret value) (hn : n < (callee.successors b).length)
    (he : Echoes f callee call s blank b before env env' cenv) :
    Corresponds f callee call g s blank (.inside s.after env (Semantics.follow callee b n cenv))
      (Semantics.follow g (s.block b) n env') := by
  have hexact := hc.exact
  have hlive := hc.orderly.live_of_split hb
  rcases follow_map hc s.block s.block
      (h.copy_successors b hlive (ne_nil_of_length_pos (by omega))) h.block_inj
      (fun c hc => h.copy_predecessors c (ne_nil_of_mem hc))
      (fun p hp heq => h.block_inj p b hp hlive heq) n cenv env' with
    ⟨hstuck, hstuck'⟩ | ⟨c, slot, hslot, hfollow, hfollow'⟩
  · rw [hstuck, hstuck']
    exact .stopped nofun
  obtain ⟨t, ht⟩ := hreach
  have hpred : b ∈ callee.predecessors c := mem_of_getElem? hslot
  have hpreds : callee.predecessors c ≠ [] := ne_nil_of_mem hpred
  have hlivec := hc.live_of_pred hpred
  rw [hfollow, hfollow']
  have hstep : callee.Trail (c :: b :: t) := .step ht hpred
  -- at the end of the block
  have hend : ∀ u, Carried callee u → callee.AvailEnd u b → env' (s.value u) = cenv u := by
    intro u hu hav
    have hav := hav.before hexact (defined_of_carried hc hu)
    rw [hb] at hav
    rcases hav.snoc_cases with hdest | hav
    · have hbarren : Barren callee u := ⟨i, hdest, hret, .inr hterm⟩
      rw [he.barren u hbarren, he.blanks u hbarren]
    · exact he.contents u hav
  have hcarried : ∀ u, callee.AvailEnd u b → Carried callee u := by
    intro u hav
    obtain ⟨d, -, hd⟩ := hav t ht
    rw [definingBlock?_eq] at hd
    obtain ⟨site, hsite, -⟩ := Option.map_eq_some_iff.1 hd
    have hav := hav.before hexact (by rw [hsite]; rfl)
    rw [hb] at hav
    rcases hav.snoc_cases with hdest | hav
    · exact ⟨.insn i, hdest, fun k value hk => Site.insn.inj hk ▸ hret value⟩
    · exact carried_of_availBefore hc ht h.plain hb hav
  refine .inside hhome ⟨_, hstep⟩ (nil_append _).symm (h.copy_insns hhome c hpreds)
    ⟨⟨?_, ?_⟩, ?_, ?_⟩
  · intro v hv hne
    rw [h.copy_merged_of_ne hhome hpreds fun q hq => (h.ne_value hv (named_phi hc hq)).symm]
    exact he.old v hv hne
  · intro w hw
    rw [h.copy_merged_of_ne hhome hpreds fun q hq heq =>
      ne_of_barren hc hw hq (h.inj _ w (named_phi hc hq) hw.named.carried heq)]
    exact he.barren w hw
  · intro w hw
    rw [merged_of_ne fun q hq => ne_of_barren hc hw hq]
    exact he.blanks w hw
  · rintro w (⟨k, hk, -⟩ | hstart)
    · cases hk
    have hw : Carried callee w := by
      obtain ⟨front, last, hinsns, -⟩ := hc.terminated c hlivec
      obtain ⟨k, more, hmore⟩ : ∃ k more, (callee.block c).insns = [] ++ k :: more := by
        cases front with
        | nil => exact ⟨last, [], hinsns⟩
        | cons k front => exact ⟨k, front ++ [last], hinsns⟩
      exact carried_of_availBefore hc hstep h.plain hmore (.inr hstart)
    obtain ⟨phi, hphis, hphi⟩ := h.copy_phis hhome c hpreds
    refine merged_eq_merged hc.flow hslot (fun q hq hvalue => ?_) (fun p hp hvalue => ?_)
      (fun hnot => hend w hw (hstart.at_pred hnot hpred))
      fun q _ _ u _ hav => hend u (hcarried u hav) hav
    · exact ⟨phi q, hphis ▸ mem_map_of_mem hq, by rw [(hphi q hq).1, hvalue]⟩
    · obtain ⟨q, hq, rfl⟩ := mem_map.1 (hphis ▸ hp)
      exact ⟨q, hq, h.inj _ w (named_phi hc hq) hw ((hphi q hq).1.symm.trans hvalue), (hphi q hq).2⟩

omit hhome in
lemma inside_assign (hb : (callee.block b).insns = before ++ i :: rest)
    (hparam : ∀ index, (callee.insn i).op ≠ .argument index)
    (hret : ∀ value, (callee.insn i).op ≠ .ret value) (hrole : (callee.insn i).op.role ≠ .pass)
    (hterm : (callee.insn i).op.isTerminator = false)
    (he : Echoes f callee call s blank b before env env' cenv) (d : D) :
    Echoes f callee call s blank b (before ++ [i]) env
      (Semantics.assign env' ((callee.insn i).dest.map s.value) d)
      (Semantics.assign cenv (callee.insn i).dest d) := by
  cases hd : (callee.insn i).dest with
  | none =>
    exact ⟨he.toBeside, he.blanks, fun u hu =>
      he.contents u (hu.snoc_cases.resolve_left (by simp [hd]))⟩
  | some w =>
    have hnamed : Named callee w := ⟨.insn i, hd, fun k hk => Site.insn.inj hk ▸ ⟨hret, hparam⟩⟩
    have hne : ∀ u, Barren callee u → u ≠ w := fun u hu =>
      hu.ne hc.exact hd hrole hterm
    refine ⟨⟨fun v hv hne => ?_, fun u hu => ?_⟩, fun u hu => ?_, fun u hu => ?_⟩
    · rw [Option.map_some, Semantics.assign, Function.update_of_ne (h.ne_value hv hnamed)]
      exact he.old v hv hne
    · rw [Option.map_some, Semantics.assign, Function.update_of_ne fun heq =>
        hne u hu (h.inj w u hnamed hu.named.carried heq.symm).symm]
      exact he.barren u hu
    · rw [Semantics.assign, Function.update_of_ne (hne u hu)]
      exact he.blanks u hu
    · by_cases huw : u = w
      · simp [huw, Semantics.assign]
      · have hav := hu.snoc_cases.resolve_left fun heq =>
          huw (Option.some.inj (heq.symm.trans hd))
        obtain ⟨t, ht⟩ := hreach
        have hcarried := carried_of_availBefore hc ht h.plain hb hav
        rw [Option.map_some, Semantics.assign, Semantics.assign, Function.update_of_ne huw,
          Function.update_of_ne fun heq => huw (h.inj w u hnamed hcarried heq.symm).symm]
        exact he.contents u hav

end

lemma inside_meets (hf : f.WellFormed) (hreach : ∃ t, callee.Trail (b :: t))
    (hb : (callee.block b).insns = before ++ rest)
    (hcopied : s.Transcribed f callee call g b rest js)
    (he : Echoes f callee call s blank b before env env' cenv) :
    Meets (next g params) (Corresponds f callee call g s blank) (left callee call)
      (left callee call (.inside s.after env (.running b rest cenv)))
      (.running (s.block b) js env')
      (calling f callee call blank params (.inside s.after env (.running b rest cenv))) := by
  obtain ⟨-, hafter⟩ := h.not_mem hf
  cases hcopied with
  | nil =>
    exact .halt (.refl _) rfl
  | @param i is js index op more =>
    have hnext : (callee.block b).insns = (before ++ [i]) ++ is := by simp [hb]
    have hmove : calling f callee call blank params (.inside s.after env (.running b (i :: is) cenv)) =
        .silent (.inside s.after env (Semantics.bindParam ((f.insn call).op.operands.map env) index
          (callee.insn i).dest b is cenv)) := by
      simp only [calling, next, op, Op.role, Move.map]
    rw [hmove]
    cases hdest : (callee.insn i).dest with
    | none =>
      refine .silent (.refl _) (.inside hhome hreach hnext more
        ⟨he.toBeside, he.blanks, fun w hw => ?_⟩) ?_
      · exact he.contents w (hw.snoc_cases.resolve_left (by simp [hdest]))
      · intro _
        simp only [Semantics.bindParam, left, length_cons]
        omega
    | some w =>
      have hpassed := h.passed hhome i index w op hdest
      have hmem := mem_of_getElem? hpassed
      have hlt : f.HasValue (s.value w) :=
        hf.exact.lt_of_reads (show f.Reads _ (.insn call) from hmem)
      have hne : (f.insn call).dest ≠ some (s.value w) := fun hd =>
        hf.exact.not_availBefore hd rfl (h.not_mem hf).1 hhome
          (hf.flow.insn_avail _ s.before call s.after h.home _ hmem)
      have hbind : Semantics.bindParam ((f.insn call).op.operands.map env) index (some w) b is
          cenv = .running b is (Semantics.assign cenv (some w) (env (s.value w))) := by
        simp only [Semantics.bindParam, getElem?_map, hpassed, Option.map_some]
      rw [hbind]
      refine .silent (.refl _) (.inside hhome hreach hnext more
        ⟨he.toBeside, fun u hu => ?_, fun u hu => ?_⟩) ?_
      · rw [Semantics.assign, Function.update_of_ne
          (hu.ne hc.exact hdest (by simp [op, Op.role]) (by rw [op]; rfl))]
        exact he.blanks u hu
      · by_cases huw : u = w
        · rw [huw, Semantics.assign, Function.update_self]
          exact he.old _ hlt hne
        · rw [Semantics.assign, Function.update_of_ne huw]
          exact he.contents u (hu.snoc_cases.resolve_left fun heq =>
            huw (Option.some.inj (heq.symm.trans hdest)))
      · intro _
        simp only [left, length_cons]
        omega
  | @copy i j is js op dest param ret more =>
    have hlive := hc.orderly.live_of_split hb
    have hnext : (callee.block b).insns = (before ++ [i]) ++ is := by simp [hb]
    have hhandlers := (h.copy_plain b hlive).trans (h.plain b).symm
    have hrole : (callee.insn i).op.role ≠ .ret := by
      cases hop : (callee.insn i).op <;> first | exact absurd hop (ret _) | simp [Op.role]
    rw [calling_inside _ _ _ _ _ _ hrole]
    refine (Move.Matches.map (Doubles.step ⟨⟨_, _, op, fun w hw => ?_⟩, by simp [dest], by rw [hhandlers],
      fun hpass => ?_, fun hterm hpass d => ?_, fun hterm n hn => ?_, fun k hk => ?_,
      fun ending hne => .stopped hne⟩ fun index hparam => ?_)).meets
    · exact he.contents w (hc.flow.insn_avail b before i is hb w hw)
    · refine .inside hhome hreach hnext more ⟨he.toBeside, he.blanks, fun w hw => ?_⟩
      rcases hw.snoc_cases with hdest | hav
      · have hbarren : Barren callee w := ⟨i, hdest, ret, .inl hpass⟩
        rw [he.barren w hbarren, he.blanks w hbarren]
      · exact he.contents w hav
    · rw [dest]
      exact .inside hhome hreach hnext more
        (h.inside_assign hc hreach hb param ret hpass hterm he d)
    · obtain rfl := hc.rest_of_terminator hb hterm
      refine h.inside_follow hc hhome hreach hb hterm ret ?_ he
      rw [Ssa.Function.successors, length_append, normalSuccessors_of_last hb hterm]
      omega
    · simp [h.plain] at hk
    · cases hop : (callee.insn i).op <;> rw [hop] at hparam <;>
        first | exact absurd hop (param _) | exact Op.Role.noConfusion hparam
  | @leave i is js returned op leaves =>
    obtain ⟨n, env'', hglides, hold, hkept, hresult⟩ := leaves D params env'
    have hmove : calling f callee call blank params
        (.inside s.after env (.running b (i :: is) cenv)) =
          .silent (.outside (back f call s.after env (returned.map cenv))) := by
      cases returned <;> simp [calling, next, op, Op.role, Op.operands]
    rw [hmove]
    have hhere : (f.block (f.insn call).block).insns = (s.before ++ [call]) ++ s.after := by
      simp [h.home]
    refine .silent hglides (.outside hhome hhere
      (.behind hafter) ⟨⟨fun v hv hne => ?_, fun w hw => ?_⟩, fun d hd _ => ?_⟩) ?_
    · rw [hold v hv, he.old v hv hne]
      cases returned with
      | none => rfl
      | some u =>
        cases hd : (f.insn call).dest with
        | none => rfl
        | some d =>
          have hvd : v ≠ d := fun heq => hne (heq ▸ hd)
          simp [Semantics.assign, Function.update_of_ne hvd]
    · rw [hkept w hw.named.carried]
      exact he.barren w hw
    · refine (hresult d hd).imp_right ?_
      rintro ⟨r, u, hr, rfl, hu⟩
      refine ⟨r, hr, ?_⟩
      have hav := hc.flow.insn_avail b before i is hb u (by simp [op, Op.operands])
      simp [hu, he.contents u hav, hd, Semantics.assign]
    · intro _
      simp only [back, left, if_neg hafter, length_cons]
      omega

end Callee

lemma meets (h : Inlined f callee call g s) (hf : f.WellFormed) (hc : callee.WellFormed)
    {x : CallState D} {y : State D} (hxy : Corresponds f callee call g s blank x y) :
    Meets (next g params) (Corresponds f callee call g s blank) (left callee call)
      (left callee call x) y (calling f callee call blank params x) := by
  cases hxy with
  | ended ending => exact .halt (.refl _) rfl
  | stopped other =>
    rename_i env ending
    have hmove : calling f callee call blank params (.inside s.after env (.ended ending)) =
        .halt ending := by
      cases ending with
      | returned d => exact absurd rfl (other d)
      | _ => rfl
    rw [hmove]
    exact .halt (.refl _) rfl
  | inside home reached here copied contents =>
    exact h.inside_meets hc home hf reached here copied contents
  | outside reached here stands contents =>
    rename_i b c before rest js env env'
    cases rest with
    | nil =>
      rw [stands.nil.1]
      exact .halt (.refl _) rfl
    | cons i rest =>
      by_cases hi : i = call
      · subst hi
        obtain ⟨rfl, rfl, rfl, rfl⟩ := stands.at_call (hf.exact.not_mem_of_split here).2
        obtain ⟨js, hcopied, henters⟩ := h.enters reached
        obtain ⟨n, hglides⟩ := henters D params env'
        have hmove : calling f callee i blank params
            (.outside (.running (f.insn i).block (i :: s.after) env)) =
              .silent (.inside s.after env (start callee fun _ => blank)) := if_pos rfl
        rw [hmove]
        refine .silent hglides (.inside reached ⟨[], .start⟩ (nil_append _).symm hcopied
          ⟨contents.toBeside, fun _ _ => rfl, ?_⟩) ?_
        · rintro w (⟨k, hk, -⟩ | hstart)
          · cases hk
          · exact absurd hstart (hc.exact.not_availStart_entry h.entry)
        · intro _
          simp only [start, left, length_cons, mem_cons_self, if_true]
          omega
      · have hmove : calling f callee call blank params (.outside (.running b (i :: rest) env)) =
            (next f params (.running b (i :: rest) env)).map .outside := if_neg hi
        rw [hmove]
        exact (h.outside_step hf reached contents here stands hi).meets

/-- The function with the copy shows what the caller shows. -/
theorem shows_iff (h : Inlined f callee call g s) (hf : f.WellFormed) (hc : callee.WellFormed)
    (hentry : f.entry = g.entry) {trace : List (Question D × Answer D)}
    {ending : Option (Ending D)} :
    Shows (calling f callee call blank params) (.outside (start f fun _ => blank)) trace ending ↔
      Shows (next g params) (start g fun _ => blank) trace ending := by
  have hsim : Simulation (calling f callee call blank params) (next g params)
      (Corresponds f callee call g s blank) (left callee call) :=
    Simulation.of_meets fun x y hxy => h.meets hf hc hxy
  refine hsim.shows_iff ?_
  have hm : Mirrors f callee call s blank f.entry [] (fun _ => blank) fun _ => blank := by
    refine ⟨⟨fun _ _ _ => rfl, fun _ _ => rfl⟩, fun d hd hav => ?_⟩
    exact absurd hav (hf.exact.not_availBefore_start hd)
  rw [start, start, ← hentry]
  refine .outside ⟨[], .start⟩ (nil_append _).symm ?_ hm
  by_cases hc : f.entry = (f.insn call).block
  · rw [hc, h.home, h.head]
    exact .ahead s.before
  · rw [h.insns _ hf.entry_live hc]
    exact .apart hc fun hmem => hc (mem_home hf hmem)

end Inlined

end Simulation

end Dissolve.Semantics
