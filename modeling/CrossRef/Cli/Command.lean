/-
  CrossRef.Cli.Command

  What the commands do: a tree of files goes in, texts for the two output
  streams, an exit code and a tree come out.
-/
import CrossRef.Cli.Arguments
import CrossRef.ConfigStore
import CrossRef.Discovery
import CrossRef.Ignore.Walk
import CrossRef.ReportText

namespace CrossRef.Cli

/-- How a command ended. -/
structure Outcome where
  code : Nat
  output : String
  errors : String
  tree : FileTree

def versionText : String := "xrefmap 0.1.0\n"

def usageText : String :=
  "Usage: xrefmap analyze|order [-m MODE] [-f text|json] [-c CONFIG] [--no-cross-file] PATHS...\n"
    ++ "       xrefmap init [-c CONFIG] [--force]\n"

/-- The report of a job. Options on the command line go before settings in the file. -/
def JobRequest.report (job : JobRequest) (t : FileTree) : Except Error Report := do
  let config := (← Config.load .standard t (job.config.getD Config.defaultPath)).getD .empty
  let selection ← Selection.parse .standard config.included config.excluded
  let files ← selection.load .standard t (job.paths.map OsString.ofText)
  let options : JobOptions :=
    ⟨!job.withinFiles && config.crossFile.getD true,
      (job.mode.orElse fun _ => config.order).getD .dependency⟩
  return Job.run .standard options (files.map (·.source))

/-- A whole report. -/
def showReport (format : Format) (r : Report) : String × String :=
  match format with
  | .json => ((r.toJson .standard : Json.Value).indented ++ "\n", "")
  | .text => (r.text, r.diagnosticLines)

/-- The order of the files alone. -/
def showOrder (format : Format) (r : Report) : String × String :=
  match format with
  | .json => ((r.ordering.toJson .standard : Json.Value).indented ++ "\n", "")
  | .text => (String.join (r.ordering.files.map (· ++ "\n")), r.diagnosticLines)

/-- What a request writes to the two streams, or why it fails, and the tree it leaves. -/
def Request.perform (t : FileTree) : Request → Except Error (String × String) × FileTree
  | .analyze job => ((job.report t).map (showReport job.format), t)
  | .order job => ((job.report t).map (showOrder job.format), t)
  | .init config force =>
    let path := config.getD Config.defaultPath
    let (result, t) := Config.starter.store .standard t path force
    (result.map fun _ => (s!"✅ Wrote {path}\n", ""), t)
  | .version => (.ok (versionText, ""), t)
  | .help => (.ok (usageText, ""), t)

/-- Runs a command line in a tree. -/
def run (t : FileTree) (arguments : List String) : Outcome :=
  match Request.parse arguments with
  | .error fault => ⟨2, "", s!"error: {fault.message}\n", t⟩
  | .ok request =>
    match request.perform t with
    | (.ok (output, errors), t) => ⟨0, output, errors, t⟩
    | (.error e, t) => ⟨1, "", s!"Error: {e.message}\n", t⟩

end CrossRef.Cli
