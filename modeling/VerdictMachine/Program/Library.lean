import VerdictMachine.Program.Basic

/-!
# Libraries

A library holds programs under the ids by which they are asked for. A resolver
is any source of programs that a host offers.
-/

set_option autoImplicit false

namespace VerdictMachine

abbrev Resolver := ProgramId → Option Program

structure Library where
  entries : List (ProgramId × Program)

namespace Library

def empty : Library := ⟨[]⟩

def find? (l : Library) (id : ProgramId) : Option Program := l.entries.lookup id

/-- Replaces what is held under the id. -/
def insert (l : Library) (id : ProgramId) (p : Program) : Library :=
  ⟨(id, p) :: l.entries.filter (·.1 != id)⟩

/-- Keeps what is already held under the id. -/
def insertNew (l : Library) (id : ProgramId) (p : Program) : Library :=
  match l.find? id with
  | some _ => l
  | none => l.insert id p

def size (l : Library) : Nat := l.entries.length

theorem find?_insert_self (l : Library) (id : ProgramId) (p : Program) :
    (l.insert id p).find? id = some p := by
  simp [find?, insert]

theorem find?_insert_ne (l : Library) {id other : ProgramId} (p : Program) (h : other ≠ id) :
    (l.insert id p).find? other = l.find? other := by
  obtain ⟨entries⟩ := l
  have ho : (other == id) = false := by simpa using h
  simp only [find?, insert, List.lookup_cons, ho]
  induction entries with
  | nil => rfl
  | cons e es ih =>
    obtain ⟨key, q⟩ := e
    by_cases he : key = id
    · simp [he, ho, List.lookup_cons, ih]
    · simp [he, List.lookup_cons, ih]

end Library

/-- A host without libraries. -/
def Resolver.none : Resolver := fun _ => Option.none

end VerdictMachine
