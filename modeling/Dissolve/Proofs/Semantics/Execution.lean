import Dissolve.Proofs.Semantics.Machine
import Dissolve.Proofs.Semantics.Observation
import Dissolve.Proofs.Ssa.WellFormed

/-!
# Proofs.Semantics.Execution — running functions in SSA form

A running function is at an instruction of a block and has an environment, which gives a content to
every value. Operations and choices are questions to the environment of the run: their answers are
arbitrary (`Answer`). Jumps, parameters and empty operations are silent.

An edge into a block assigns the phis of the block all at once. Which operands belong to the edge is
decided by counting: the `n`-th edge from `b` to `c` belongs to the `n`-th entry `b` among the
predecessors of `c`.

`Lockstep f g …` relates two functions that go through corresponding instructions with contents that
correspond; such functions show the same (`Lockstep.shows_iff`).
-/

namespace Dissolve

open List

namespace Ssa.Op

variable {op : Op}

@[simp] lemma form_mapOperands (op : Op) (g : ValueId → ValueId) :
    (op.mapOperands g).form = op.form := by
  cases op with
  | branch cond left right thenTarget elseTarget => cases right <;> rfl
  | ret value => cases value <;> rfl
  | _ => simp [form, mapOperands, mapTargets, Function.comp_def]

@[simp] lemma form_mapTargets (op : Op) (g : BlockId → BlockId) :
    (op.mapTargets g).form = op.form := by
  cases op <;> simp [form, mapOperands, mapTargets, Function.comp_def]

/-- How an operation takes part in a run. -/
inductive Role
  | pass
  | param (index : Nat)
  | jump
  | ret
  | throw
  | ask
  deriving DecidableEq

def role : Op → Role
  | .nop => .pass
  | .argument index => .param index
  | .goto _ => .jump
  | .ret _ => .ret
  | .throw _ => .throw
  | _ => .ask

lemma isTerminator_of_jump (h : op.role = .jump) : op.isTerminator := by
  cases op <;> simp_all [role, isTerminator]

lemma targets_of_jump (h : op.role = .jump) : 0 < op.targets.length := by
  cases op <;> simp_all [role, targets]

lemma isTerminator_of_targets {n : Nat} (h : n < op.targets.length) : op.isTerminator := by
  cases op <;> simp_all [targets, isTerminator]

@[simp] lemma role_mapOperands (op : Op) (g : ValueId → ValueId) :
    (op.mapOperands g).role = op.role := by
  cases op <;> rfl

@[simp] lemma role_mapTargets (op : Op) (g : BlockId → BlockId) :
    (op.mapTargets g).role = op.role := by
  cases op <;> rfl

end Ssa.Op

namespace Semantics

open Machine (Ending)
open Ssa (Function Op)

variable {b : BlockId} {i : InsnId} {rest : List InsnId}

/-- An operation that is to be performed on some contents. -/
structure Question (D : Type) where
  op : Op
  args : List D

inductive Answer (D : Type)
  | value (content : D)
  | choice (index : Nat)
  /-- An exception is raised; one of the handlers takes it if there is one of that number. -/
  | raise (exception : D) (handler : Nat)

inductive State (D : Type)
  | running (block : BlockId) (rest : List InsnId) (env : ValueId → D)
  | ended (ending : Ending D)

def assign {D : Type} (env : ValueId → D) (dest : Option ValueId) (d : D) : ValueId → D :=
  match dest with
  | some v => Function.update env v d
  | none => env

/-- The place of the entry `a` of a list that has `n` such entries before it. -/
def occurrence {α : Type} [DecidableEq α] (a : α) : Nat → List α → Option Nat
  | _, [] => none
  | 0, x :: xs => if x = a then some 0 else (occurrence a 0 xs).map (· + 1)
  | n + 1, x :: xs =>
    if x = a then (occurrence a n xs).map (· + 1) else (occurrence a (n + 1) xs).map (· + 1)

section Run

variable {D : Type} {f : Function} {params : List D}

/-- The contents behind an edge into a block, the edge of predecessor number `slot`. -/
def merged (f : Function) (c : BlockId) (slot : Nat) (env : ValueId → D) (v : ValueId) : D :=
  match (f.block c).phis.find? fun q => decide ((f.phi q).value = v) with
  | some q => ((f.phi q).operands[slot]?).elim (env v) env
  | none => env v

def follow (f : Function) (b : BlockId) (n : Nat) (env : ValueId → D) : State D :=
  match (f.successors b)[n]? with
  | none => .ended .stuck
  | some c =>
    match occurrence b (((f.successors b).take n).count c) (f.predecessors c) with
    | some slot => .running c (f.block c).insns (merged f c slot env)
    | none => .ended .stuck

def hand (f : Function) (b : BlockId) (exception : D) (handler : Nat) (env : ValueId → D) :
    State D :=
  if handler < (f.block b).handlers.length then
    follow f b ((f.normalSuccessors b).length + handler) env
  else .ended (.thrown exception)

def resume (f : Function) (b : BlockId) (rest : List InsnId) (i : InsnId) (env : ValueId → D) :
    Answer D → State D
  | .value d =>
    if (f.insn i).op.isTerminator then .ended .stuck
    else .running b rest (assign env (f.insn i).dest d)
  | .choice n =>
    if n < (f.insn i).op.targets.length then follow f b n env else .ended .stuck
  | .raise e handler => hand f b e handler env

def bindParam (params : List D) (index : Nat) (dest : Option ValueId) (b : BlockId)
    (rest : List InsnId) (env : ValueId → D) : State D :=
  match dest, params[index]? with
  | none, _ => .running b rest env
  | some _, some d => .running b rest (assign env dest d)
  | some _, none => .ended .stuck

/-- What a throw does: without handlers it ends the run. -/
def throwing (f : Function) (b : BlockId) (op : Op) (env : ValueId → D) :
    List D → Move (Question D) (Answer D) (Ending D) (State D)
  | [] => .halt .stuck
  | e :: args =>
    if (f.block b).handlers = [] then .halt (.thrown e)
    else .ask ⟨op.form, e :: args⟩ fun
      | .raise _ handler => hand f b e handler env
      | _ => .ended .stuck

/-- What a function does next. -/
def next (f : Function) (params : List D) :
    State D → Move (Question D) (Answer D) (Ending D) (State D)
  | .ended ending => .halt ending
  | .running _ [] _ => .halt .stuck
  | .running b (i :: rest) env =>
    match (f.insn i).op.role with
    | .pass => .silent (.running b rest env)
    | .param index => .silent (bindParam params index (f.insn i).dest b rest env)
    | .jump => .silent (follow f b 0 env)
    | .ret => .halt (.returned ((f.insn i).op.operands.map env).head?)
    | .throw => throwing f b (f.insn i).op env ((f.insn i).op.operands.map env)
    | .ask =>
      .ask ⟨(f.insn i).op.form, (f.insn i).op.operands.map env⟩ (resume f b rest i env)

lemma next_of_ask {env : ValueId → D} (h : (f.insn i).op.role = .ask) :
    next f params (.running b (i :: rest) env) =
      .ask ⟨(f.insn i).op.form, (f.insn i).op.operands.map env⟩ (resume f b rest i env) := by
  simp only [next, h]

lemma next_of_jump {env : ValueId → D} (h : (f.insn i).op.role = .jump) :
    next f params (.running b (i :: rest) env) = .silent (follow f b 0 env) := by
  simp only [next, h]

def start (f : Function) (env : ValueId → D) : State D :=
  .running f.entry (f.block f.entry).insns env

end Run

/-! ## One step -/

section Step

variable {D : Type} {f g : Function} {R : State D → State D → Prop} {c : BlockId} {j : InsnId}
  {js : List InsnId} {env env' : ValueId → D} {params params' : List D}

/-- Instruction `j` of `g` does what `i` does in `f`: the same operation on the same contents, and
related states follow. -/
structure Doubles (f g : Function) (R : State D → State D → Prop) (b c : BlockId) (i j : InsnId)
    (rest js : List InsnId) (env env' : ValueId → D) : Prop where
  op : ∃ value block, (g.insn j).op = ((f.insn i).op.mapOperands value).mapTargets block ∧
    ∀ v ∈ (f.insn i).op.operands, env' (value v) = env v
  dest : (g.insn j).dest.isSome = (f.insn i).dest.isSome
  handlers : (g.block c).handlers.length = (f.block b).handlers.length
  pass : (f.insn i).op.role = .pass → R (.running b rest env) (.running c js env')
  assign : (f.insn i).op.isTerminator = false → (f.insn i).op.role ≠ .pass → ∀ d,
    R (.running b rest (Semantics.assign env (f.insn i).dest d))
      (.running c js (Semantics.assign env' (g.insn j).dest d))
  follow : (f.insn i).op.isTerminator → ∀ n < (f.insn i).op.targets.length,
    R (Semantics.follow f b n env) (Semantics.follow g c n env')
  raise : ∀ k < (f.block b).handlers.length,
    R (Semantics.follow f b ((f.normalSuccessors b).length + k) env)
      (Semantics.follow g c ((g.normalSuccessors c).length + k) env')
  ended : ∀ ending, (∀ d, ending ≠ .returned d) → R (.ended ending) (.ended ending)

namespace Doubles

variable (h : Doubles f g R b c i j rest js env env')
include h

lemma args : (g.insn j).op.operands.map env' = (f.insn i).op.operands.map env := by
  obtain ⟨value, block, hop, hoperands⟩ := h.op
  rw [hop, Op.operands_mapTargets, Op.operands_mapOperands, map_map]
  exact map_congr_left hoperands

lemma hand (e : D) (handler : Nat) :
    R (Semantics.hand f b e handler env) (Semantics.hand g c e handler env') := by
  unfold Semantics.hand
  rw [h.handlers]
  split
  · exact h.raise handler ‹_›
  · exact h.ended _ nofun

lemma bindParam {index : Nat} (hrole : (f.insn i).op.role = .param index)
    (hparam : params'[index]? = params[index]?) :
    R (Semantics.bindParam params index (f.insn i).dest b rest env)
      (Semantics.bindParam params' index (g.insn j).dest c js env') := by
  have hplain : (f.insn i).op.isTerminator = false := by
    cases hop : (f.insn i).op <;> simp_all [Op.role, Op.isTerminator]
  have hassign := h.assign hplain (by simp [hrole])
  have hdest := h.dest
  unfold Semantics.bindParam
  rw [hparam]
  cases hi : (f.insn i).dest with
  | none =>
    have hj : (g.insn j).dest = none := by simpa [hi] using hdest
    rw [hi, hj] at hassign
    rw [hj]
    exact hassign (env ⟨0⟩)
  | some v =>
    obtain ⟨w, hj⟩ := Option.isSome_iff_exists.1 (hdest.trans (by rw [hi]; rfl))
    rw [hi, hj] at hassign
    rw [hj]
    cases params[index]? with
    | none => exact h.ended _ (by simp)
    | some d => exact hassign d

lemma resume (hrole : (f.insn i).op.role = .ask) (answer : Answer D) :
    R (Semantics.resume f b rest i env answer) (Semantics.resume g c js j env' answer) := by
  obtain ⟨value, block, hop, -⟩ := h.op
  cases answer with
  | value d =>
    simp only [Semantics.resume, hop, Op.isTerminator_mapTargets, Op.isTerminator_mapOperands]
    cases hterm : (f.insn i).op.isTerminator with
    | true => exact h.ended _ nofun
    | false => exact h.assign hterm (by simp [hrole]) d
  | choice n =>
    simp only [Semantics.resume, hop, Op.targets_mapTargets, Op.targets_mapOperands, length_map]
    split
    · exact h.follow (Op.isTerminator_of_targets ‹_›) n ‹_›
    · exact h.ended _ nofun
  | raise e handler => exact h.hand e handler

lemma step (hparam : ∀ index, (f.insn i).op.role = .param index → params'[index]? = params[index]?) :
    (next f params (.running b (i :: rest) env)).Matches R
      (next g params' (.running c (j :: js) env')) := by
  have hargs := h.args
  obtain ⟨value, block, hop, -⟩ := h.op
  have hrole : (g.insn j).op.role = (f.insn i).op.role := by simp [hop]
  have hform : (g.insn j).op.form = (f.insn i).op.form := by simp [hop]
  simp only [next, hrole, hargs, hform]
  cases hcase : (f.insn i).op.role with
  | pass => exact .silent (h.pass hcase)
  | param index => exact .silent (h.bindParam hcase (hparam index hcase))
  | jump =>
    exact .silent (h.follow (Op.isTerminator_of_jump hcase) 0 (Op.targets_of_jump hcase))
  | ret => exact .halt _
  | throw =>
    cases hthrown : (f.insn i).op.operands.map env with
    | nil => exact .halt _
    | cons e args =>
      have hempty : (g.block c).handlers = [] ↔ (f.block b).handlers = [] := by
        rw [← length_eq_zero_iff, h.handlers, length_eq_zero_iff]
      simp only [throwing, hempty, hform]
      split
      · exact .halt _
      · refine .ask fun answer => ?_
        cases answer with
        | raise _ handler => exact h.hand e handler
        | _ => exact h.ended _ nofun
  | ask => exact .ask fun answer => h.resume hcase answer

end Doubles

end Step

/-! ## Functions in step -/

section Lockstep

variable {D : Type} (f g : Function) (block : BlockId → BlockId) (insn : InsnId → InsnId)
  (value : ValueId → ValueId)
  (P : BlockId → List InsnId → (ValueId → D) → (ValueId → D) → Prop)

/-- States of two functions at corresponding places, with contents that correspond there. -/
inductive InStep : State D → State D → Prop
  | running {b : BlockId} {before rest : List InsnId} {env env' : ValueId → D}
      (here : (f.block b).insns = before ++ rest) (contents : P b before env env') :
      InStep (.running b rest env) (.running (block b) (rest.map insn) env')
  | ended (ending : Ending D) : InStep (.ended ending) (.ended ending)

/-- Two functions go through corresponding instructions; `P b before env env'` says that the contents
behind the instructions `before` of block `b` correspond. -/
structure Lockstep : Prop where
  op : ∀ {b before i rest env env'}, P b before env env' →
    (f.block b).insns = before ++ i :: rest →
    (g.insn (insn i)).op = ((f.insn i).op.mapOperands value).mapTargets block
  dest : ∀ {b before i rest env env'}, P b before env env' →
    (f.block b).insns = before ++ i :: rest → (g.insn (insn i)).dest = (f.insn i).dest.map value
  operands : ∀ {b before i rest env env'}, P b before env env' →
    (f.block b).insns = before ++ i :: rest → ∀ v ∈ (f.insn i).op.operands, env' (value v) = env v
  handlers : ∀ {b before env env'}, P b before env env' →
    (g.block (block b)).handlers.length = (f.block b).handlers.length
  normal : ∀ {b before env env'}, P b before env env' →
    (g.normalSuccessors (block b)).length = (f.normalSuccessors b).length
  last : ∀ {b before i rest env env'}, P b before env env' →
    (f.block b).insns = before ++ i :: rest → (f.insn i).op.isTerminator = true → rest = []
  pass : ∀ {b before i rest env env'}, P b before env env' →
    (f.block b).insns = before ++ i :: rest → (f.insn i).op.role = .pass → P b (before ++ [i]) env env'
  assign : ∀ {b before i rest env env'}, P b before env env' →
    (f.block b).insns = before ++ i :: rest → (f.insn i).op.isTerminator = false → ∀ d,
    P b (before ++ [i]) (Semantics.assign env (f.insn i).dest d)
      (Semantics.assign env' ((f.insn i).dest.map value) d)
  /-- An edge; normal ones are taken at the end of a block. -/
  follow : ∀ {b before i rest env env' n}, P b before env env' →
    (f.block b).insns = before ++ i :: rest →
    (n < (f.normalSuccessors b).length → rest = [] ∧ (f.insn i).op.isTerminator = true) →
    InStep f block insn P (Semantics.follow f b n env) (Semantics.follow g (block b) n env')

variable {f g block insn value P} {params : List D}

namespace Lockstep

section

variable (h : Lockstep f g block insn value P)
include h

lemma doubles {before : List InsnId} {env env' : ValueId → D} (hP : P b before env env')
    (hb : (f.block b).insns = before ++ i :: rest) :
    Doubles f g (InStep f block insn P) b (block b) i (insn i) rest (rest.map insn) env env' := by
  have hnext : (f.block b).insns = (before ++ [i]) ++ rest := by simp [hb]
  refine ⟨⟨value, block, h.op hP hb, h.operands hP hb⟩, by simp [h.dest hP hb], h.handlers hP,
    fun hrole => .running hnext (h.pass hP hb hrole), fun hterm _ d => ?_, fun hterm n _ => ?_,
    fun k _ => ?_, fun ending _ => .ended ending⟩
  · rw [h.dest hP hb]
    exact .running hnext (h.assign hP hb hterm d)
  · exact h.follow hP hb fun _ => ⟨h.last hP hb hterm, hterm⟩
  · rw [h.normal hP]
    exact h.follow hP hb fun hlt => absurd hlt (by omega)

lemma step {s t : State D} (hst : InStep f block insn P s t) :
    (next f params s).Matches (InStep f block insn P) (next g params t) := by
  cases hst with
  | ended ending => exact .halt ending
  | @running b before rest env env' here contents =>
    cases rest with
    | nil => exact .halt _
    | cons i rest => exact (h.doubles contents here).step fun _ _ => rfl

theorem shows_iff {s t : State D} (hst : InStep f block insn P s t)
    {trace : List (Question D × Answer D)} {ending : Option (Ending D)} :
    Shows (next f params) s trace ending ↔ Shows (next g params) t trace ending :=
  (Simulation.of_matches fun _ _ hst => h.step hst).shows_iff hst

end

end Lockstep

end Lockstep

end Semantics

end Dissolve
