import RelationAlgebra.Dataset
import RelationAlgebra.Store

/-!
# Installing a dataset

The declarations of a dataset are staged one after another, each name once: a later declaration of
the same name adds its tuples to what is staged, if its arity agrees and if it declares no other
properties. Only when all declarations are staged do relations enter the store and the registry, so
a failure changes nothing. Relations registered before are not touched, also under equal names.
-/

namespace RelationAlgebra

/-- Why a dataset cannot be installed. -/
inductive InstallError where
  /-- Two declarations of a relation disagree about its arity. -/
  | arityClash (relation : String) (first second : Nat)
  /-- A later declaration of a relation declares other properties. -/
  | redeclared (relation : String)
  /-- Properties are declared for a relation that is not binary. -/
  | notBinary (relation : String) (arity : Nat) (properties : PropertySet)
  /-- The relation cannot be made. -/
  | declaring (relation : String) (cause : RelationError)
  /-- The tuples cannot be added. -/
  | loading (relation : String) (cause : RelationError)
deriving DecidableEq, Repr

namespace InstallError

/-- The wording of an error, without its cause. -/
def message : InstallError → String
  | arityClash relation first second =>
    s!"relation `{relation}` declared with arity {first} and {second}"
  | redeclared relation => s!"relation `{relation}` redeclared with different properties"
  | notBinary relation arity properties =>
    s!"relation `{relation}` has arity {arity} but declares properties ({properties.display}); " ++
      "only binary relations can"
  | declaring relation _ => s!"while declaring `{relation}`"
  | loading relation _ => s!"while loading tuples of `{relation}`"

/-- The error of the algebra behind an error, if there is one. -/
def cause? : InstallError → Option RelationError
  | declaring _ cause | loading _ cause => some cause
  | _ => none

/-- The wording of an error, with its cause. -/
def fullMessage (e : InstallError) : String :=
  match e.cause? with
  | some cause => s!"{e.message}: {cause.message}"
  | none => e.message

end InstallError

/-- Relations that are still to enter a store: schemas of different names, and their rows. -/
abbrev Staging := List (Schema × Extension)

namespace Declaration

/-- The schema of the relation that is declared. -/
def schema (d : Declaration) : Except InstallError Schema :=
  if d.properties.isEmpty then
    (Schema.plain d.name d.arity).mapError (.declaring d.name)
  else if d.arity ≠ 2 then
    .error (.notBinary d.name d.arity d.properties)
  else
    (Schema.binary d.name d.properties).mapError (.declaring d.name)

/-- The schema staged under the same name, if the declaration agrees with it. -/
def merge (d : Declaration) (staged : Schema) : Except InstallError Schema :=
  if staged.arity ≠ d.arity then
    .error (.arityClash d.name staged.arity d.arity)
  else if !d.properties.isEmpty && d.properties ≠ staged.properties then
    .error (.redeclared d.name)
  else .ok staged

/-- The rows with the tuples of the declaration admitted. -/
def load (d : Declaration) (schema : Schema) (x : Extension) : Except InstallError Extension :=
  (schema.insertAll x (d.entries.map Entry.tuple)).mapError (.loading d.name)

/-- The staging with the declaration added: merged into the relation of the same name, or as a new
relation at the end. -/
def stage (staging : Staging) (d : Declaration) : Except InstallError Staging := do
  match staging.find? fun entry => entry.1.name == d.name with
  | some (staged, x) =>
    let schema ← d.merge staged
    let x ← d.load schema x
    return staging.map fun entry => if entry.1.name == d.name then (schema, x) else entry
  | none =>
    let schema ← d.schema
    let x ← d.load schema (.empty schema.arity)
    return staging ++ [(schema, x)]

end Declaration

namespace Dataset

/-- The relations that a dataset declares, in the order of their first declarations. -/
def staging (d : Dataset) : Except InstallError Staging := d.relations.foldlM Declaration.stage []

end Dataset

namespace Store

/-- The store with staged relations made and registered in turn, and the relations. -/
def commit (s : Store) (registry : String) : Staging → List Base × Store
  | [] => ([], s)
  | (schema, x) :: staging =>
    let (b, s) := s.create schema x
    let (bs, s) := (s.register registry b).commit registry staging
    (b :: bs, s)

/-- The store with the relations of a dataset at the end of a registry, and these relations. -/
def install (s : Store) (registry : String) (d : Dataset) :
    Except InstallError (List Base × Store) :=
  return s.commit registry (← d.staging)

end Store

end RelationAlgebra
