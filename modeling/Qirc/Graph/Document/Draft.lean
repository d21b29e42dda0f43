import Qirc.Graph.Document.Basic

/-!
# Documents that are being read

A format may give a name twice. The second value is then read over the first: a list goes on from
the items of the list before it, also from those that a shorter list in between left behind.
-/

namespace Qirc.Document

/-- A list that was read, and the items behind its end that an earlier list left there. -/
structure Refill (α : Type) where
  items : List α := []
  behind : List α := []
  deriving Inhabited

namespace Refill

def all {α : Type} (r : Refill α) : List α := r.items ++ r.behind

def renew {α : Type} (r : Refill α) (items : List α) : Refill α :=
  ⟨items, r.all.drop items.length⟩

end Refill

structure NodeDraft where
  record : NodeRecord
  inputs : Refill String := {}
  outputs : Refill String := {}

def NodeDraft.zero : NodeDraft := { record := .zero }

def NodeDraft.ofRecord (r : NodeRecord) : NodeDraft :=
  ⟨{ r with inputs := [], outputs := [] }, ⟨r.inputs, []⟩, ⟨r.outputs, []⟩⟩

def NodeDraft.finish (d : NodeDraft) : NodeRecord :=
  { d.record with inputs := d.inputs.items, outputs := d.outputs.items }

structure Draft where
  version : Int := 0
  nodes : Refill NodeDraft := {}
  edges : Refill EdgeRecord := {}

def Draft.ofDocument (d : Document) : Draft :=
  ⟨d.version, ⟨d.nodes.map NodeDraft.ofRecord, []⟩, ⟨d.edges, []⟩⟩

def Draft.finish (d : Draft) : Document :=
  ⟨d.version, d.nodes.items.map NodeDraft.finish, d.edges.items⟩

end Qirc.Document
