import Dissolve.Proofs.Lift.Ranges

/-!
# Proofs.Lift.Partition — layouts are faithful to their streams

`Layout.Faithful` adds to `Layout.Lays` that the ranges reach to the end of the stream, that every label
a jump or the exception table names stands among the labels its range begins with, and that the exception
table does not tell the instructions of one range apart. Every layout that is built is faithful
(`build_faithful`).
-/

namespace Dissolve.Lift.Layout

open List
open Code (Instruction Body HandlerEntry)

variable {method : MethodRef} {insns : List Instruction} {entries : List HandlerEntry}
  {table : List Protected} {starts : List Nat} {i j k o : Nat} {layout : Layout} {body : Body}
  {r : Range}

inductive Named (body : Body) (l : Label) : Prop
  | jump {insn : Instruction} (mem : insn ∈ body.instructions) (target : l ∈ insn.branchTargets)
  | entry {entry : HandlerEntry} (mem : entry ∈ body.handlers)
      (label : l ∈ [entry.start, entry.stop, entry.handler])

def Covers (layout : Layout) (entry : HandlerEntry) (o : Nat) : Prop :=
  ∃ start stop, layout.labels.get? entry.start = some start ∧
    layout.labels.get? entry.stop = some stop ∧ start ≤ o ∧ o < stop

/-- What a layout says is true of the stream and the exception table of a body. -/
structure Faithful (layout : Layout) (body : Body) : Prop
    extends layout.Lays body.instructions where
  last : ∀ {k r}, layout.range? k = some r → k + 1 = layout.ranges.length →
    r.stop = body.instructions.length
  named : ∀ l, Named body l → ∃ o j, layout.labels.get? l = some o ∧
    layout.Enters body.instructions j o
  /-- Instructions of a range that are no labels are covered by the same entries. -/
  covered : ∀ {k r}, layout.range? k = some r →
    ∀ i ∈ realOffsets body.instructions r.start r.stop,
    ∀ j ∈ realOffsets body.instructions r.start r.stop, ∀ entry ∈ body.handlers,
      layout.Covers entry i → layout.Covers entry j
  /-- A covered range throws at its last instruction only. -/
  throws : ∀ {k r}, layout.range? k = some r →
    ∀ i ∈ realOffsets body.instructions r.start r.stop, ∀ entry ∈ body.handlers,
      layout.Covers entry i → (insnAt body.instructions i).mayThrow = true → i + 1 = r.stop

namespace Cutting

variable (hc : layout.Cutting insns entries table starts)
include hc

lemma not_enters_inside (hr : layout.range? k = some r) (hi : i ∈ realOffsets insns r.start r.stop)
    (hio : i < o) (ho : o < r.stop) : ¬layout.Enters insns j o := by
  rintro ⟨r', hr', hstart, -, hlabels⟩
  obtain ⟨⟨hle, -⟩, hreal⟩ := mem_realOffsets.1 hi
  rcases Nat.lt_or_ge i r'.start with hlt | hge
  · obtain ⟨hx, hstop, -⟩ := hc.range hr
    have := hc.cuts.stopOf_le_of_lt hx (mem_of_getElem? (hc.range hr').1) (by omega)
    omega
  · rw [hlabels i hge hio] at hreal
    cases hreal

lemma covers_along {p : Protected} (hp : p ∈ table) (hr : layout.range? k = some r)
    (hi : i ∈ realOffsets insns r.start r.stop) (hj : j ∈ realOffsets insns r.start r.stop)
    (hcovers : p.start ≤ i ∧ i < p.stop) : p.start ≤ j ∧ j < p.stop := by
  have hi' := (mem_realOffsets.1 hi).1
  have hj' := (mem_realOffsets.1 hj).1
  constructor
  · by_contra hlt
    exact hc.not_enters_inside hr hj (by omega) (by omega) (hc.entry p hp p.start (by simp))
  · by_contra hge
    exact hc.not_enters_inside hr hi hcovers.2 (by omega) (hc.entry p hp p.stop (by simp))

lemma exists_resolved {entry : HandlerEntry} (hentry : entry ∈ entries) :
    ∃ p ∈ table, (layout.labels.get? entry.start = some p.start ∧
      layout.labels.get? entry.stop = some p.stop ∧
        layout.labels.get? entry.handler = some p.handler) ∧
      ∀ o, layout.Covers entry o ↔ p.start ≤ o ∧ o < p.stop := by
  obtain ⟨n, hn, rfl⟩ := getElem_of_mem hentry
  have hn' : n < table.length := hc.resolved.length_eq ▸ hn
  have hget := hc.resolved.get hn hn'
  refine ⟨table[n], getElem_mem hn', hget, fun o => ⟨?_, fun h => ⟨_, _, hget.1, hget.2.1, h⟩⟩⟩
  rintro ⟨start, stop, hstart, hstop, h⟩
  cases hstart.symm.trans hget.1
  cases hstop.symm.trans hget.2.1
  exact h

end Cutting

/-- A layout that is built is faithful. -/
theorem build_faithful (h : build method body = .ok layout) : layout.Faithful body := by
  obtain ⟨table, starts, hc⟩ := build_cutting h
  refine { lays_of_build h with last := ?_, named := ?_, covered := ?_, throws := ?_ }
  · intro k r hr hlast
    rw [(hc.range hr).2.1, stopOf, getElem?_eq_none (by rw [hlast, hc.length]), Option.getD_none]
  · rintro l (⟨mem, target⟩ | ⟨mem, label⟩)
    · obtain ⟨i, hi⟩ := mem_iff_getElem?.1 mem
      obtain ⟨o, ho, henters⟩ := hc.target hi l target
      exact ⟨o, _, ho, henters⟩
    · obtain ⟨p, hp, ⟨hstart, hstop, hhandler⟩, -⟩ := hc.exists_resolved mem
      simp only [mem_cons, not_mem_nil, or_false] at label
      rcases label with rfl | rfl | rfl
      · exact ⟨_, _, hstart, hc.entry p hp _ (by simp)⟩
      · exact ⟨_, _, hstop, hc.entry p hp _ (by simp)⟩
      · exact ⟨_, _, hhandler, hc.entry p hp _ (by simp)⟩
  · intro k r hr i hi j hj entry hentry
    obtain ⟨p, hp, -, hcovers⟩ := hc.exists_resolved hentry
    rw [hcovers, hcovers]
    exact hc.covers_along hp hr hi hj
  · intro k r hr i hi entry hentry hcovered hthrows
    obtain ⟨p, hp, -, hcovers⟩ := hc.exists_resolved hentry
    obtain ⟨hle, hlt⟩ := (hcovers i).1 hcovered
    have hi' := (mem_realOffsets.1 hi).1
    -- an instruction that may throw where it is covered ends its range
    have hends : endsRange table i (insnAt body.instructions i) := by
      rw [endsRange, hthrows, any_eq_true.2 ⟨p, hp, by simp [Protected.covers, hle, hlt]⟩]
      simp
    by_contra hne
    rw [hc.inner hr i hi'.1 (by omega)] at hends
    cases hends

/-- A loop whose body is protected and throws in the middle; the end of the protected code and the
exit share a place, and the handler jumps back. -/
def guardedLoop : Body :=
  { maxStack := 1
    maxLocals := 0
    instructions := [.label ⟨0⟩, .label ⟨1⟩, .constNull, .arrayLength, .branch .eq .int ⟨1⟩,
      .label ⟨2⟩, .label ⟨3⟩, .ret none, .label ⟨4⟩, .pop, .goto ⟨0⟩]
    handlers := [⟨⟨1⟩, ⟨3⟩, ⟨4⟩, none⟩, ⟨⟨2⟩, ⟨2⟩, ⟨4⟩, none⟩] }

theorem guardedLoop_faithful : ∃ layout, build default guardedLoop = .ok layout ∧
    layout.ranges.map Range.start = [0, 4, 5, 8] ∧ layout.Faithful guardedLoop := by
  have hbuilt : (build default guardedLoop).toOption.map (·.ranges.map Range.start) =
      some [0, 4, 5, 8] := by decide +kernel
  cases hbuild : build default guardedLoop with
  | error e =>
    rw [hbuild] at hbuilt
    cases hbuilt
  | ok layout =>
    rw [hbuild] at hbuilt
    exact ⟨layout, rfl, Option.some.inj hbuilt, build_faithful hbuild⟩

end Dissolve.Lift.Layout
