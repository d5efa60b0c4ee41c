import JsonKeys.Proofs.KeyExpr.Written
import JsonKeys.Proofs.Path.Text

/-!
Tokens that begin with a dot. They are never numbers, whatever the names in them look like, so that
every path of names has a token that stands for it.
-/
namespace JsonKeys

theorem Path.ofText_dotted (text : String) : ofText ("." ++ text) = ofText text := by
  simp [ofText]

namespace KeyExpr

theorem isNumberToken_dotted (text : String) : isNumberToken ("." ++ text) = false := by
  simp [isNumberToken]

/-- Behind a dot a token is a name. -/
theorem tokenPaths_dotted (keys : List String) (text : String) :
    tokenPaths keys ("." ++ text) = .ok [Path.ofText text] := by
  rw [tokenPaths, isNumberToken_dotted, if_neg Bool.false_ne_true, Path.ofText_dotted]

theorem tokenListPaths_dotted (keys texts : List String) :
    tokenListPaths keys (texts.map fun text => "." ++ text) = .ok (texts.map Path.ofText) :=
  tokenListPaths_of_singletons fun text _ => tokenPaths_dotted keys text

/-- The names of a path that can be told from its text: a backslash at the end of a name would hide
the dot behind it, and an empty name in front would leave no trace. -/
def Sayable (names : List String) : Prop :=
  names ≠ [] ∧ (∀ name ∈ names.dropLast, ¬EndsInBackslash name) ∧
    (names.head? = some "" → names = [""])

instance (names : List String) : Decidable (Sayable names) := by
  unfold Sayable
  infer_instance

theorem Sayable.ofText_text {names : List String} (h : Sayable names) :
    Path.ofText (Path.text (Path.ofNames names)) = Path.ofNames names := by
  obtain ⟨hne, hback, hfirst⟩ := h
  by_cases hempty : names.head? = some ""
  · rw [hfirst hempty]
    decide
  · rw [Path.ofText_text_ofNames hne hempty, Path.reread_eq_self hback]

/-- Whatever the outline, the texts of paths behind dots and between quotes stand for the paths, in
order and each as often as it is there. -/
theorem paths_ofTokens {quote : Char} (hquote : Quotable quote) {paths : List (List String)}
    (h : ∀ names ∈ paths, Sayable names) (numbering : Numbering) (deep : Bool) :
    KeyExpr.paths (ofTokens quote (paths.map fun names => "." ++ Path.text (Path.ofNames names)))
      numbering quote deep = .ok (paths.map Path.ofNames) := by
  rw [KeyExpr.paths, tokens_ofTokens hquote]
  apply tokenListPaths_of_singletons
  intro names hnames
  rw [tokenPaths_dotted, (h names hnames).ofText_text]

/-- The dot is a quote here, and it escapes a dot there. -/
theorem paths_ofTokens_dot :
    Quotable '.' ∧ (∀ names ∈ [["1-3"], ["a.b", "", "c, d\\"], [""], ["1-3"]], Sayable names) ∧
    KeyExpr.paths (ofTokens '.' ["." ++ "1-3", "." ++ "a\\.b..c, d\\", "." ++ "", "." ++ "1-3"])
      (.given []) '.' false =
      .ok [[.name "1-3"], [.name "a.b", .name "", .name "c, d\\"], [.name ""], [.name "1-3"]] := by
  have hquote : Quotable '.' := by decide
  have hnames : ∀ names ∈ [["1-3"], ["a.b", "", "c, d\\"], [""], ["1-3"]], Sayable names := by
    decide
  exact ⟨hquote, hnames, paths_ofTokens hquote hnames (.given []) false⟩

end KeyExpr

end JsonKeys
