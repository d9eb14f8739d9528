import LuaBundle.Analysis.Error
import LuaBundle.Proofs.Text.Unbroken

/-! When a diagnostic is on one line. What it says of its own is; the rest are texts that an error
takes over from somewhere else, and each of them counts. -/

namespace LuaBundle

open Text

namespace Number

theorem Decimal.unbroken_text (d : Decimal) : Unbroken d.text := by
  have hdigits : Unbroken ((decimal d.digits).reverse.dropWhile (· == unit '0')).reverse := by
    refine (unbroken_decimal d.digits).of_subset fun u hu => ?_
    exact List.mem_reverse.mp ((List.dropWhile_sublist _).subset (List.mem_reverse.mp hu))
  unfold Decimal.text
  generalize ((decimal d.digits).reverse.dropWhile (· == unit '0')).reverse = digits at hdigits
  have hzeros : ∀ n, Unbroken (List.replicate n (unit '0')) := fun n u hu => by
    rw [List.eq_of_mem_replicate hu]
    decide
  have htake : ∀ n, Unbroken (digits.take n) := fun n => hdigits.of_subset (List.take_subset n _)
  have hdrop : ∀ n, Unbroken (dot :: digits.drop n) := fun n =>
    unbroken_cons.mpr ⟨by decide, hdigits.of_subset (List.drop_subset n _)⟩
  have hexponent : ∀ n, Unbroken
      (unit 'e' :: (if 0 < d.point then unit '+' else unit '-') :: decimal n) := fun n => by
    refine unbroken_cons.mpr ⟨by decide, unbroken_cons.mpr ⟨?_, unbroken_decimal n⟩⟩
    split <;> decide
  refine .ite ?_ (.ite ?_ (.ite ?_ ?_))
  · exact unbroken_append.mpr ⟨hdigits, hzeros _⟩
  · exact unbroken_append.mpr ⟨htake _, hdrop _⟩
  · exact (@unbroken_append [unit '0', dot] _).mpr
      ⟨by decide, unbroken_append.mpr ⟨hzeros _, hdigits⟩⟩
  · exact unbroken_append.mpr
      ⟨unbroken_append.mpr ⟨htake 1, .ite .nil (hdrop 1)⟩, hexponent _⟩

theorem unbroken_text (n : Number) : Unbroken n.text := by
  unfold text
  split
  · decide
  · decide
  · refine .ite (by decide) ?_
    have hsign : ∀ v : Rat, Unbroken (if v < 0 then [dash] else []) := fun v =>
      .ite (by decide) .nil
    dsimp only
    split
    · exact unbroken_append.mpr ⟨hsign _, by decide⟩
    · exact .ite (unbroken_append.mpr ⟨hsign _, by decide⟩)
        (unbroken_append.mpr ⟨hsign _, Decimal.unbroken_text _⟩)

end Number

namespace SourceLocation

theorem unbroken_lineText {l : SourceLocation} : Unbroken l.lineText ↔ Unbroken l.file := by
  have hcolon : Escape.isBreak colon = false := by decide
  rw [lineText, unbroken_append, unbroken_cons, and_iff_right hcolon,
    and_iff_left (Number.unbroken_text _)]

theorem unbroken_text {l : SourceLocation} : Unbroken l.text ↔ Unbroken l.file := by
  have hcolon : Escape.isBreak colon = false := by decide
  rw [text, unbroken_append, unbroken_lineText, unbroken_cons, and_iff_right hcolon,
    and_iff_left (Number.unbroken_text _)]

end SourceLocation

namespace Diagnostic

theorem unbroken_shownHint {d : Diagnostic} :
    (∀ t ∈ d.shownHint, Unbroken t) ↔ ∀ hint ∈ d.hint, Unbroken hint := by
  have hlabel : Unbroken (ofString "Hint: ") := by decide
  unfold shownHint
  split
  · rename_i hnone
    simp [hnone]
  · rename_i hempty
    simp [hempty, Unbroken.nil]
  · rename_i hint _ hsome
    simp [hsome, hlabel]

/-- A diagnostic is shown on one line just if its parts are. -/
theorem unbroken_text {d : Diagnostic} (hcode : Unbroken d.code) :
    Unbroken d.text ↔ (∀ l ∈ d.location, Unbroken l.file) ∧ Unbroken d.message ∧
      ∀ hint ∈ d.hint, Unbroken hint := by
  have hspace : Unbroken [space] := by decide
  have hseverity : Unbroken (d.severity.text ++ space :: d.code ++ [colon]) := by
    refine unbroken_append.mpr ⟨unbroken_append.mpr ⟨?_, unbroken_cons.mpr ⟨by decide, hcode⟩⟩,
      by decide⟩
    cases d.severity <;> decide
  rw [text, unbroken_joinWith hspace, List.forall_mem_append, List.forall_mem_append,
    unbroken_shownHint, List.forall_mem_cons, List.forall_mem_singleton, and_iff_right hseverity]
  cases d.location <;> simp [SourceLocation.unbroken_text, and_assoc]

end Diagnostic

namespace AnalysisError

/-- The texts that the diagnostic of an error takes over: names of modules, paths, and the argument
of a dynamic require. -/
def texts : AnalysisError → List Text
  | scriptNotFound path => [path]
  | circularDependency cycle => cycle
  | dynamicRequire location rawText => [location.file, rawText]
  | limitExceeded _ _ moduleName => [moduleName]
  | moduleNotFound moduleName requiredBy searchedPaths => moduleName :: requiredBy :: searchedPaths
  | nativeModule moduleName requiredBy nativePath => [moduleName, requiredBy, nativePath]

theorem unbroken_requiredIn {moduleName requiredBy : Text} :
    Unbroken (requiredIn moduleName requiredBy) ↔ Unbroken moduleName ∧ Unbroken requiredBy := by
  have hrequired : Unbroken (ofString " required in ") := by decide
  rw [requiredIn, unbroken_append, unbroken_append, unbroken_inSingleQuotes, and_iff_left hrequired]

/-- The diagnostic of an error is shown on one line just if the texts that it takes over are. -/
theorem unbroken_text (e : AnalysisError) :
    Unbroken e.diagnostic.text ↔ ∀ t ∈ e.texts, Unbroken t := by
  have hcodes : ∀ code ∈ ["LST1001", "LST1002", "LST1003", "LST1004", "LST1005", "LST1006"],
      Unbroken (ofString code) := by decide +kernel
  have hcode : Unbroken e.diagnostic.code := by cases e <;> exact hcodes _ (by simp)
  rw [Diagnostic.unbroken_text hcode]
  cases e with
  | scriptNotFound path =>
    have hlabel : Unbroken (ofString "Lua script not found: ") := by decide
    simp [diagnostic, Diagnostic.error, texts, hlabel]
  | circularDependency cycle =>
    have hlabel : Unbroken (ofString "Circular dependency detected: ") := by decide +kernel
    have harrow : Unbroken (ofString " -> ") := by decide
    have hhint : Unbroken
        (ofString "Break the cycle by moving shared code into a separate module") := by
      decide +kernel
    simp [diagnostic, Diagnostic.error, texts, hlabel, hhint, unbroken_joinWith harrow]
  | dynamicRequire location rawText =>
    have hlabel : Unbroken (ofString "Dynamic require at ") ∧ Unbroken (ofString ": ") := by decide
    have hhint : ∀ hint ∈ (dynamicRequire location rawText).diagnostic.hint, Unbroken hint := by
      rintro _ ⟨rfl⟩
      decide +kernel
    rw [and_iff_left hhint]
    simp [diagnostic, texts, hlabel, SourceLocation.unbroken_lineText]
  | limitExceeded limit count moduleName =>
    have hlabels : Unbroken (ofString "Dependency count (") ∧
        Unbroken (ofString ") exceeds limit (") ∧
        Unbroken (ofString ") while adding module ") := by decide +kernel
    have hhint : Unbroken (ofString "Raise the limit with -max <n>") := by decide +kernel
    simp [diagnostic, Diagnostic.error, texts, hlabels, hhint, Number.unbroken_text,
      unbroken_inSingleQuotes]
  | moduleNotFound moduleName requiredBy searchedPaths =>
    have hlabels : Unbroken (ofString "Cannot resolve module ") ∧
        Unbroken (ofString "Searched: ") ∧ Unbroken (ofString ", ") := by decide +kernel
    simp [diagnostic, Diagnostic.error, texts, hlabels, unbroken_requiredIn,
      unbroken_joinWith hlabels.2.2, and_assoc]
  | nativeModule moduleName requiredBy nativePath =>
    have hlabels : Unbroken (ofString "Module ") ∧
        Unbroken (ofString " is a native library and cannot be bundled: ") := by decide +kernel
    simp [diagnostic, Diagnostic.error, texts, hlabels, unbroken_requiredIn, and_assoc]

end AnalysisError

end LuaBundle
