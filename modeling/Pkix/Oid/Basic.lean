import Pkix.Bytes

/-!
# Object identifiers

An object identifier is a path of numbered arcs. Its first two arcs come from a fixed top of the
tree: root 0 and root 1 have 40 children each, root 2 has as many as fit once the two arcs are
joined into one 64-bit number. Every other arc is any 64-bit number. The type carries these
rules, so whatever produced an identifier, it can be written down.

* `Oid.wellFormed`: the rules on the arcs.
* `Oid.text`: dotted decimal text.
* `Oid.cmp`: arcs compare lexicographically as numbers.
-/

namespace Pkix

/-- The first two arcs, `root` and `child`, name a child of one of the three roots. -/
def Oid.leadingOk (root child : Nat) : Bool :=
  (root < 2 && child < 40) || (root == 2 && child + 80 < UInt64.size)

/-- The arcs form an object identifier. -/
def Oid.wellFormed : List Nat → Bool
  | root :: child :: rest => Oid.leadingOk root child && rest.all (· < UInt64.size)
  | _ => false

/-- An object identifier, by its `arcs`. -/
structure Oid where
  /-- The arcs from the root down. -/
  arcs : List Nat
  /-- The `arcs` obey the rules of the tree. -/
  valid : Oid.wellFormed arcs = true
deriving DecidableEq

namespace Oid

theorem ext_arcs {a b : Oid} (h : a.arcs = b.arcs) : a = b := by
  cases a; cases b; cases h; rfl

/-- Dotted decimal text of `o`. -/
def text (o : Oid) : String := ".".intercalate (o.arcs.map Nat.repr)

/-- The dotted text of `o` with what it is. -/
def describe (o : Oid) : String := "ObjectIdentifier(" ++ o.text ++ ")"

/-- Compares lists of arcs lexicographically. -/
def cmpArcs : List Nat → List Nat → Ordering
  | [], [] => .eq
  | [], _ :: _ => .lt
  | _ :: _, [] => .gt
  | a :: as, b :: bs => (compare a b).then (cmpArcs as bs)

/-- Compares identifiers `a` and `b` arc by arc. -/
def cmp (a b : Oid) : Ordering := cmpArcs a.arcs b.arcs

end Oid

end Pkix
