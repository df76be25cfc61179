/-
  WsdlCatalog.Service — the whole way from the texts of a service to its catalog.

  Every stage has a result or refuses its input, and is logged either way. What was
  logged before a refusal stays in the log.
-/

import WsdlCatalog.Compile.Catalog
import WsdlCatalog.Schema.Assembly

namespace WsdlCatalog

inductive Level where
  | info
  | warning
  deriving DecidableEq, Repr

def Level.name : Level → String
  | info => "INFO"
  | warning => "WARNING"

structure Outcome (α : Type) where
  result : Except Refusal α
  log : List (Level × String)

namespace Outcome

def ofExcept {α : Type} (result : Except Refusal α) : Outcome α := ⟨result, []⟩

def bind {α β : Type} (first : Outcome α) (next : α → Outcome β) : Outcome β :=
  match first.result with
  | .ok a => ⟨(next a).result, first.log ++ (next a).log⟩
  | .error e => ⟨.error e, first.log⟩

end Outcome

def assemble (location : String) (sources : List (String × List UInt8)) : Outcome SchemaSet :=
  match SchemaSet.assemble location sources with
  | .ok set => ⟨.ok set, [(.info, set.assembledMessage)]⟩
  | .error e => ⟨.error e, []⟩

def options (given overrides : List (String × Json)) : Outcome Options :=
  .ofExcept ((Options.resolve given overrides).mapError .options)

def SchemaSet.compile (set : SchemaSet) (options : Options) : Outcome Catalog :=
  match Setting.ofSchemaSet set options with
  | .error fault => ⟨.error (.fault fault), []⟩
  | .ok setting =>
    let (result, progress) := (Compile.catalog setting set).run.run .start
    let warnings := progress.diagnostics.map fun d => (Level.warning, d.warning)
    match result with
    | .ok catalog =>
      ⟨.ok catalog, warnings ++ [(.info, catalog.compiledMessage set.location)]⟩
    | .error e => ⟨.error e, warnings⟩

/-- The catalog of a document and all that it leads to. The options are looked at first. -/
def compileSources (location : String) (sources : List (String × List UInt8))
    (given overrides : List (String × Json)) : Outcome Catalog :=
  (options given overrides).bind fun options =>
    (assemble location sources).bind (·.compile options)

end WsdlCatalog
