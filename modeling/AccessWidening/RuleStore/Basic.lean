import AccessWidening.RuleSet.Canonical
import AccessWidening.RuleSet.Load
import AccessWidening.RuleStore.ClassRules
import AccessWidening.Snapshot.Frame
import AccessWidening.Stale

/-!
Rule stores: rule sets kept in a form in which the rules for a class are at hand.

Rules are grouped by class. The bucket of a class is made when the first rule for the class arrives,
and taken out as a whole. A store answers what the rule set with the same rules answers.
-/

namespace AccessWidening

/-- Rules grouped by the class that they concern. -/
structure RuleStore where
  classes : Std.HashMap String ClassRules

namespace RuleStore

def empty : RuleStore := ⟨∅⟩

/-- The bucket of a class, a new one if no rule concerns the class yet. -/
def bucketAt (store : RuleStore) (name : String) : ClassRules :=
  store.classes[name]?.getD (ClassRules.empty name)

def add (store : RuleStore) (e : Element) (level : Level) : RuleStore :=
  ⟨store.classes.insert e.owner ((store.bucketAt e.owner).add e level)⟩

def addAll (store : RuleStore) (requests : List (Element × Level)) : RuleStore :=
  requests.foldl (fun held entry => held.add entry.1 entry.2) store

/-- Puts the bucket of a class into the store. It is folded into the bucket of the same class if
there is one, and moved there as it is otherwise. -/
def absorb (store : RuleStore) (name : String) (bucket : ClassRules) : RuleStore :=
  match store.classes[name]? with
  | some existing => ⟨store.classes.insert name (existing.merge bucket)⟩
  | none => ⟨store.classes.insert name bucket⟩

def merge (store other : RuleStore) : RuleStore :=
  other.classes.toList.foldl (fun held entry => held.absorb entry.1 entry.2) store

def takeBucket (store : RuleStore) (name : String) : Option ClassRules × RuleStore :=
  (store.classes[name]?, ⟨store.classes.erase name⟩)

def classCount (store : RuleStore) : Nat := store.classes.size

def isEmpty (store : RuleStore) : Bool := store.classes.isEmpty

def classNames (store : RuleStore) : List String :=
  store.classes.keys.mergeSort fun a b => compare a b ≠ .gt

def pending (store : RuleStore) : List Element :=
  Element.sorted (store.classes.toList.flatMap fun entry => entry.2.remaining)

def entries (store : RuleStore) : List (Element × Level) :=
  sortEntries (store.classes.toList.flatMap fun entry => entry.2.entries)

def ensureClear (store : RuleStore) : Except StaleRules Unit :=
  if store.isEmpty then .ok () else .error (StaleRules.ofList store.pending)

def summary (store : RuleStore) : String :=
  let rules := store.classes.fold (fun count _ bucket => count + bucket.remaining.length) 0
  "AccessTransformationSet(" ++ toString store.classCount ++ " classes, " ++
    toString rules ++ " rules)"

/-- Stores are compared by what they hold. -/
instance : BEq RuleStore where
  beq a b := a.classes == b.classes

def addText (store : RuleStore) (source text : String) : Except SourceError (RuleStore × Nat) :=
  (Rule.ofText source text).map fun found =>
    (store.addAll (found.map fun rule => (rule.element, rule.level)), found.length)

def ofText (source text : String) : Except SourceError (RuleStore × Nat) :=
  empty.addText source text

def addLine (store : RuleStore) (line : String) : Except SourceError (RuleStore × Nat) :=
  store.addText "<inline>" line

def fingerprint (store : RuleStore) : Bytes :=
  Blake3.hash (Bytes.ofString (String.join (store.entries.map entryLine)))

def toSnapshot (store : RuleStore) : Bytes :=
  let payload := (Payload.mk store.classCount store.entries).write
  Snapshot.header payload ++ payload

/-- The store that a payload describes, if its class count and its entries agree. -/
def ofPayload (payload : Payload) : Except SnapshotError RuleStore :=
  let store := empty.addAll payload.entries
  if store.classCount ≠ payload.classCount then
    .error (.classCount payload.classCount store.classCount)
  else if store.entries.length ≠ payload.entries.length then .error .duplicateEntries
  else .ok store

def ofSnapshot (bytes : Bytes) : Except SnapshotError RuleStore := do
  let payload ← Snapshot.payloadOf bytes
  match Payload.read payload with
  | none => throw .undecodable
  | some (content, _) => ofPayload content

end RuleStore

end AccessWidening
