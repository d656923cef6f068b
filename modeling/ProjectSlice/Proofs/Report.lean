import Mathlib.Algebra.Group.Nat.Defs
import ProjectSlice.Proofs.Json.RoundTrip
import ProjectSlice.Report

/-! Analyses read back from their texts. The view and the report list the same fields of a
dependency or an include, in two orders, and a reader takes them by name. Main statement: nothing of
an analysis is lost in either text, and the counts of the report are right. -/
namespace ProjectSlice
open Json

theorem readEach {α β : Type} {write : α → β} {read? : β → Option α} {xs : List α}
    (each : ∀ x ∈ xs, read? (write x) = some x) : (xs.map write).mapM read? = some xs := by
  induction xs with
  | nil => rfl
  | cons x xs ih =>
    obtain ⟨first,others⟩ := List.forall_mem_cons.mp each
    rw [List.map_cons,List.mapM_cons,first,ih others]
    rfl

theorem Dependency.readBack (d : Dependency) : ofJson? d.toJson = some d := by
  have record : d.toJson.record? ["className".toList,"filePath".toList,"refType".toList,
      "referencedBy".toList] = some [.string d.className,.string d.file,.string d.kind.word,
        .string d.referencedBy] := rfl
  unfold ofJson?
  rw [record]
  simp only [bind,Option.bind,text?,choice?,ReferenceKind.ofWordOfWord]

theorem lineOfNat {n : Nat} (bounded : n < 2 ^ 64) : line? (.ofNat n) = some n := by
  rw [line?,natOfNat]
  exact if_pos bounded

namespace SelectedInclude

/- The view and the report give the same fields. -/
theorem readFields {i : SelectedInclude} (bounded : i.found.line < 2 ^ 64) {j : Json}
    (keyword : j.field? "type".toList = some (.string i.found.keyword.word))
    (expression : j.field? "rawPath".toList = some (.string i.found.expression))
    (resolved : j.field? "resolved".toList = some (.string i.found.resolved))
    (line : j.field? "line".toList = some (.ofNat i.found.line))
    (source : j.field? "sourceFile".toList = some (.string i.source)) :
    ofJson? j = some i := by
  unfold ofJson?
  simp only [keyword,expression,resolved,line,source,bind,Option.bind,text?,choice?,
    lineOfNat bounded,IncludeKeyword.ofWordOfWord]

theorem readBack {i : SelectedInclude} (bounded : i.found.line < 2 ^ 64) :
    ofJson? i.toJson = some i := readFields bounded rfl rfl rfl rfl rfl

theorem readReport {i : SelectedInclude} (bounded : i.found.line < 2 ^ 64) :
    ofJson? i.toReport = some i := readFields bounded rfl rfl rfl rfl rfl

end SelectedInclude

namespace Analysis

theorem readParts {a : Analysis} {j : Json} {write : SelectedInclude → Json}
    (each : ∀ i ∈ a.includes, SelectedInclude.ofJson? (write i) = some i)
    (record : j.record? ["dependencies".toList,"includes".toList] =
      some [.array (a.dependencies.map Dependency.toJson),.array (a.includes.map write)]) :
    ofJson? j = some a := by
  unfold ofJson?
  rw [record]
  simp only [bind,Option.bind,items?,readEach each,readEach fun d _ => Dependency.readBack d]

theorem plainEach {α : Type} {depth : Nat} {write : α → Json} (plain : ∀ x, Plain depth (write x))
    (xs : List α) : Plain (depth + 1) (.array (xs.map write)) := by
  refine .array fun _ mem => ?_
  obtain ⟨x,_,rfl⟩ := List.mem_map.mp mem
  exact plain x

theorem plainDependency (d : Dependency) : Plain 1 d.toJson :=
  .object (by simp [Plain.string])

theorem plainInclude (i : SelectedInclude) : Plain 1 i.toJson ∧ Plain 1 i.toReport :=
  ⟨.object (by simp [Plain.string,Plain.number]),.object (by simp [Plain.string,Plain.number])⟩

theorem plainView (a : Analysis) : Plain 3 a.toJson := by
  have dependencies := plainEach plainDependency a.dependencies
  have includes := plainEach (fun i => (plainInclude i).1) a.includes
  exact .object (by simp [dependencies,includes])

theorem plainReport (a : Analysis) : Plain 3 a.toReport := by
  have dependencies := plainEach plainDependency a.dependencies
  have includes := plainEach (fun i => (plainInclude i).2) a.includes
  have counts : Plain 2 (.object [("dependencies".toList,.ofNat a.dependencies.length),
      ("includes".toList,.ofNat a.includes.length),
      ("unresolvedIncludes".toList,.ofNat a.unresolved.length)]) :=
    .object (by simp [Plain.number])
  exact .object (List.forall_mem_cons.mpr ⟨dependencies,
    List.forall_mem_cons.mpr ⟨includes,List.forall_mem_singleton.mpr counts⟩⟩)

theorem unresolvedCount (a : Analysis) :
    a.unresolved = a.includes.filter fun i => i.found.resolved = [] := by
  refine List.filter_congr fun i _ => ?_
  cases h : i.found.resolved <;> simp [Include.isResolved,h]

/-- Either text of an analysis, in either layout, is read back as the analysis that it was written
for; in the compact layout it is one line. The counts of the report are those of the analysis. -/
theorem jsonRoundTrip (a : Analysis) (lines : ∀ i ∈ a.includes, i.found.line < 2 ^ 64) :
    (∀ layout, (parse? (a.toJson.write layout)).bind ofJson? = some a ∧
      (parse? (a.toReport.write layout)).bind ofJson? = some a) ∧
    '\n' ∉ a.toJson.write .compact ∧ '\n' ∉ a.toReport.write .compact ∧
    ∀ layout, ∃ report counts, parse? (a.toReport.write layout) = some report ∧
      report.field? "meta".toList = some counts ∧
      (counts.field? "dependencies".toList).bind nat? = some a.dependencies.length ∧
      (counts.field? "includes".toList).bind nat? = some a.includes.length ∧
      (counts.field? "unresolvedIncludes".toList).bind nat? =
        some (a.includes.filter fun i => i.found.resolved = []).length := by
  have view (layout : Layout) : parse? (a.toJson.write layout) = some a.toJson :=
    parseWrite layout ((plainView a).deeper (by decide))
  have report (layout : Layout) : parse? (a.toReport.write layout) = some a.toReport :=
    parseWrite layout ((plainReport a).deeper (by decide))
  refine ⟨fun layout => ⟨?_,?_⟩,compactOneLine (plainView a) 0,compactOneLine (plainReport a) 0,
    fun layout => ⟨a.toReport,_,report layout,rfl,natOfNat _,natOfNat _,?_⟩⟩
  · rw [view,Option.bind_some]
    exact readParts (fun i mem => SelectedInclude.readBack (lines i mem)) rfl
  · rw [report,Option.bind_some]
    exact readParts (fun i mem => SelectedInclude.readReport (lines i mem)) rfl
  · rw [← unresolvedCount]
    exact natOfNat _

/- An analysis with marks of the format in its texts, with an include that has no target and the
greatest line number. -/
def marked : Analysis :=
  ⟨[⟨"A\\\x22,\n\x01".toList,"lib/é😀.php".toList,.importing,"\x7b\x7d[]:".toList⟩],
    [⟨⟨.requireOnce,"$a . \x27\tb\x27".toList,[],2 ^ 64 - 1⟩,"run.php".toList⟩,
      ⟨⟨.include,"\x22c.php\x22".toList,"c.php".toList,0⟩,"run.php".toList⟩]⟩

theorem markedReadBack :
    (∀ i ∈ marked.includes, i.found.line < 2 ^ 64) ∧
    (∀ layout, (parse? (marked.toReport.write layout)).bind ofJson? = some marked) ∧
    '\n' ∉ marked.toReport.write .compact ∧
    ∃ report counts, parse? (marked.toReport.write .pretty) = some report ∧
      report.field? "meta".toList = some counts ∧
      (counts.field? "unresolvedIncludes".toList).bind nat? = some 1 := by
  have lines : ∀ i ∈ marked.includes, i.found.line < 2 ^ 64 := by decide
  obtain ⟨readBack,_,one,counts⟩ := jsonRoundTrip marked lines
  obtain ⟨report,counts,written,found,_,_,unresolved⟩ := counts .pretty
  exact ⟨lines,fun layout => (readBack layout).2,one,report,counts,written,found,unresolved⟩

end Analysis
end ProjectSlice
