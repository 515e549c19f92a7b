/-
  CrossRef.Proofs.ConfigFile

  Settings are read back from any table with the values of theirs
  (`ofTable?_of_values`), whatever is left out and whatever the patterns hold.
-/
import CrossRef.ConfigFile
import CrossRef.Proofs.Toml.Codec

namespace CrossRef.Config

open CrossRef.Toml

/-- Tables of settings are plain, so they can be written and read back. -/
theorem plain_toTable (c : Config) : c.toTable.Plain := by
  have hcross : Bare "cross_file" := .of_all (by decide)
  have horder : Bare "order" := .of_all (by decide)
  have hinclude : Bare "include" := .of_all (by decide)
  have hexclude : Bare "exclude" := .of_all (by decide)
  have hentries : ∀ e ∈ c.toTable, Bare e.1 ∧ e.2.Plain := by
    intro e he
    simp only [toTable, List.mem_append, List.mem_map, List.mem_cons, List.not_mem_nil, or_false]
      at he
    obtain (⟨b, -, rfl⟩ | ⟨m, -, rfl⟩) | rfl | rfl := he
    · exact ⟨hcross, .bool b⟩
    · exact ⟨horder, .string m.text⟩
    · exact ⟨hinclude, .texts c.included⟩
    · exact ⟨hexclude, .texts c.excluded⟩
  refine ⟨?_, fun e he => (hentries e he).1, fun e he => (hentries e he).2⟩
  rcases c with ⟨_ | crossFile, _ | order, included, excluded⟩
  all_goals simp [toTable]

theorem texts?_map (ss : List String) : texts? (.array (ss.map .string)) = some ss :=
  mapM_string?_map ss

theorem mode?_text (m : OrderMode) : mode? (.string m.text) = some m := by
  cases m
  all_goals decide +kernel

/-- Settings are read back from what their keys have in a table. -/
theorem ofTable?_of_values {c : Config} {es : Entries}
    (h : ∀ key, es.value? key = Entries.value? c.toTable key) : ofTable? es = some c := by
  rw [ofTable?, setting?, setting?, setting?, setting?, h, h, h, h]
  rcases c with ⟨_ | crossFile, _ | order, included, excluded⟩
  all_goals
    simp [toTable, Entries.value?, List.lookup_cons, flag?, mode?_text, texts?_map]

end CrossRef.Config
