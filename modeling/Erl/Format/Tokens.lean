import Erl.Format.Direct

/-!
# Two readers of one format string

`do_parse` looks for the replacement fields of a format string, and `std::format` looks
for them again in what it is transformed to. They find the same fields unless one begins
in a stretch that `do_parse` skips behind a `{{`.
-/

namespace Erl.Format
open Util FormatString FormatParser

variable {C : Classes} {arg_types : List C.Ty} {source : StringView} {location : SourceLocation}
  {t : Transformed} {final : FormatParser}

/-- What `std::format` reads in the end has the pieces of the source, with other names; the
fields of the source are the ones `do_parse` has taken. -/
def TokenisedAlike (source : StringView) (t : Transformed) (final : FormatParser) : Prop :=
  ∃ ps renamed, scan source = some ps ∧ scan t.fmt = some renamed ∧ shape renamed = shape ps ∧
    final.fields = starts 0 ps

/-- `do_parse` takes all fields only if none begins in a stretch that is skipped. -/
theorem clear_of_fields {ps : List (Piece Name)}
    (hok : parse C arg_types (FormatString.render ps) location = .ok (t, final)) (hfields : final.fields = starts 0 ps) :
    Clear ps := by
  by_contra hclear
  obtain ⟨p, l, offset, hrun, -, -, -, -, rfl⟩ := parse_eq_ok.mp hok
  have hskipped : clearFrom none ps = false := by simpa [Clear] using hclear
  obtain ⟨x, hx, hmissed⟩ := parseFrom_missed hskipped (Nat.le_refl 0) (fun x hx => absurd hx List.not_mem_nil) rfl hrun
  rw [pushText_fields] at hfields
  rw [hfields] at hmissed
  exact hmissed hx

/-- **Tokens.** A well-formed format string that is accepted is read alike by the two
exactly if no field begins in a stretch that is skipped. -/
theorem tokenisedAlike_iff {ps : List (Piece Name)} (hscan : scan source = some ps)
    (hok : parse C arg_types source location = .ok (t, final)) : TokenisedAlike source t final ↔ Clear ps := by
  obtain rfl := scan_eq_some_iff.mp hscan
  constructor
  · rintro ⟨ps', renamed, hscan', -, -, hfields⟩
    obtain rfl := Option.some.inj (hscan.symm.trans hscan')
    exact clear_of_fields hok hfields
  · intro hclear
    obtain ⟨⟨T⟩, hfields⟩ := parse_render hclear hok
    exact ⟨ps, T.renamed, hscan, T.scan, T.shape_eq, hfields⟩

/-- In `{1} {{x}} {0}` the escapes are a pair. -/
theorem tokenisedAlike_pair :
    ∃ t final, parse numbersOnly [(), ()] "{1} {{x}} {0}".toList {} = .ok (t, final) ∧
      TokenisedAlike "{1} {{x}} {0}".toList t final := by
  obtain ⟨t, final, hok⟩ : ∃ t final, parse numbersOnly [(), ()] "{1} {{x}} {0}".toList {} = .ok (t, final) :=
    ⟨_, _, rfl⟩
  obtain ⟨ps, hscan, hclear⟩ : ∃ ps, scan "{1} {{x}} {0}".toList = some ps ∧ Clear ps := ⟨_, rfl, rfl⟩
  exact ⟨t, final, hok, (tokenisedAlike_iff hscan hok).mpr hclear⟩

/-- In `{1} {{(}} {0}` the bracket is never closed. The second field keeps its name, which is
no longer the one of argument 0: that is not even passed. -/
theorem not_tokenisedAlike_bracket :
    (∃ final, parse numbersOnly [(), ()] "{1} {{(}} {0}".toList {} =
      .ok (⟨"{0} {{(}} {0}".toList, [1], []⟩, final) ∧ final.fields = [0]) ∧
    ¬ ∀ (C : Classes) (arg_types : List C.Ty) (source : StringView) (location : SourceLocation) (t : Transformed)
        (final : FormatParser), (scan source).isSome → parse C arg_types source location = .ok (t, final) →
      TokenisedAlike source t final := by
  refine ⟨⟨_, rfl, rfl⟩, fun h => ?_⟩
  obtain ⟨ps, renamed, hscan, -, -, hfields⟩ := h numbersOnly [(), ()] "{1} {{(}} {0}".toList {} _ _ rfl rfl
  obtain rfl := Option.some.inj hscan
  exact absurd hfields (by decide)

end Erl.Format
