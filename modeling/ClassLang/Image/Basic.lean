import ClassLang.Image.Constants
import ClassLang.Image.Instr
import ClassLang.Library.Lineage
import ClassLang.Library.MemberKey
import ClassLang.Library.Native

/-!
# Images

A program that can be run: a construct for every class with the chunks of its members, the constants,
the keys of the members that calls refer to, and a chunk to start with. Chunks are found by climbing
the parents of a construct.
-/

namespace ClassLang

/-- Instructions with the number of arguments, the receiver among them, and the number of local slots,
the arguments among them. -/
structure Chunk where
  code : Array Instr
  arguments : Nat
  locals : Nat
deriving DecidableEq, Repr

/-- What runs when a member is called: a native or a chunk. -/
inductive Body where
  | native (native : Native) (arguments : Nat)
  | compiled (chunk : Chunk)
deriving DecidableEq, Repr

namespace Body

/-- The number of arguments that a call pops, the receiver among them. -/
def arguments : Body → Nat
  | .native _ arguments => arguments
  | .compiled chunk => chunk.arguments

/-- A native with the arguments it needs. -/
def ofNative (native : Native) : Body := .native native native.arity

end Body

/-- The bodies of a construct by member, the members ascending. -/
structure BodyTable where
  entries : List (Nat × Body)
  ascending : (entries.map (·.1)).Pairwise (· < ·)
deriving DecidableEq

namespace BodyTable

/-- A table without bodies. -/
def empty : BodyTable := ⟨[], by simp⟩

/-- Puts an entry in its place and removes one of the same member. -/
def insertEntry (member : Nat) (body : Body) : List (Nat × Body) → List (Nat × Body)
  | [] => [(member, body)]
  | e :: es =>
    if member < e.1 then (member, body) :: e :: es
    else if member = e.1 then (member, body) :: es
    else e :: insertEntry member body es

theorem mem_insertEntry {member k : Nat} {body : Body} {es : List (Nat × Body)}
    (h : k ∈ (insertEntry member body es).map (·.1)) : k = member ∨ k ∈ es.map (·.1) := by
  induction es with
  | nil => simpa [insertEntry] using h
  | cons e es ih =>
    simp only [insertEntry] at h
    split at h
    · simpa using h
    · split at h
      · simp only [List.map_cons, List.mem_cons] at h ⊢
        rcases h with h | h
        · exact .inl h
        · exact .inr (.inr h)
      · simp only [List.map_cons, List.mem_cons] at h ⊢
        rcases h with h | h
        · exact .inr (.inl h)
        · rcases ih h with h | h
          · exact .inl h
          · exact .inr (.inr h)

theorem ascending_insertEntry {member : Nat} {body : Body} {es : List (Nat × Body)}
    (h : (es.map (·.1)).Pairwise (· < ·)) :
    ((insertEntry member body es).map (·.1)).Pairwise (· < ·) := by
  induction es with
  | nil => simp [insertEntry]
  | cons e es ih =>
    simp only [List.map_cons, List.pairwise_cons] at h
    simp only [insertEntry]
    split
    · next lt =>
      simp only [List.map_cons, List.pairwise_cons, List.mem_cons]
      refine ⟨?_, h⟩
      rintro k (rfl | hk)
      · exact lt
      · exact Nat.lt_trans lt (h.1 k hk)
    · split
      · next eq =>
        simp only [List.map_cons, List.pairwise_cons]
        exact ⟨fun k hk => eq ▸ h.1 k hk, h.2⟩
      · simp only [List.map_cons, List.pairwise_cons]
        refine ⟨fun k hk => ?_, ih h.2⟩
        rcases mem_insertEntry hk with rfl | hk
        · omega
        · exact h.1 k hk

/-- Gives a member a body. -/
def insert (t : BodyTable) (member : Nat) (body : Body) : BodyTable :=
  ⟨insertEntry member body t.entries, ascending_insertEntry t.ascending⟩

/-- The body of a member. -/
def find? (t : BodyTable) (member : Nat) : Option Body := t.entries.lookup member

end BodyTable

/-- A class as the machine sees it: its instances have `fieldCount` slots, inherited fields among
them. -/
structure Construct where
  name : String
  parent : Option Nat
  fieldCount : Nat
  bodies : BodyTable
deriving DecidableEq

/-- A program that can be run. -/
structure Image where
  magic : String
  version : Nat
  constructs : Array Construct
  main : Nat
  constants : ConstantPool
  members : Array MemberKey
  entry : Chunk

namespace Image

/-- The mark of the format. -/
def formatMagic : String := "ENLYN"

/-- The version of the format. -/
def formatVersion : Nat := 1

/-- The construct at an index. -/
def construct? (image : Image) (index : Nat) : Option Construct := image.constructs[index]?

/-- The key of a member. -/
def member? (image : Image) (member : Nat) : Option MemberKey := image.members[member]?

/-- The first member with a key. -/
def memberId? (image : Image) (key : MemberKey) : Option Nat := image.members.findIdx? (· == key)

/-- The parent of a construct. -/
def parent? (image : Image) (index : Nat) : Option Nat :=
  (image.construct? index).bind (·.parent)

/-- A construct followed by its ancestors, nearest first. -/
def ancestors (image : Image) (index : Nat) : List Nat :=
  lineage image.parent? image.constructs.size index

/-- The body of a member on the nearest construct of the chain that has one, with that construct. -/
def resolve? (image : Image) (index member : Nat) : Option (Nat × Body) :=
  (image.ancestors index).findSome? fun a =>
    ((image.construct? a).bind (·.bodies.find? member)).map (a, ·)

/-- One construct is another or inherits from it. -/
def isInstance (image : Image) (index ancestor : Nat) : Bool :=
  (image.ancestors index).contains ancestor

end Image

end ClassLang
