import BendersPlanning.Toml.Scanner
import BendersPlanning.Toml.Table

/-!
# Reading TOML

A document is a list of lines: blank ones, headers and key–value pairs. Arrays and inline tables nest
at most 80 deep. `Toml.parse?` answers the tree of a document as a JSON value.
-/

namespace BendersPlanning.Toml

open Scanner

/-- Items of an array up to its closing bracket, given a scanner of values. -/
def arrayItems (value : Scanner (Json Float)) : Nat → Scanner (List (Json Float))
  | 0 => failure
  | fuel + 1 => do
    gap fuel
    if ← accept "]" then return []
    let v ← value
    gap fuel
    if ← accept "," then return v :: (← arrayItems value fuel)
    char ']'
    return [v]

/-- Pairs of an inline table up to its closing brace. -/
def inlinePairs (value : Scanner (Json Float)) : Nat → Entries → Scanner Entries
  | 0, _ => failure
  | fuel + 1, entries => do
    let (path, name) ← key
    blanks
    char '='
    blanks
    let v ← value
    let entries ← (setValue path name v entries : Option Entries)
    blanks
    if ← accept "," then inlinePairs value fuel entries
    else
      char '\x7d'
      return entries

/-- A value; `depth` bounds how deep arrays and inline tables nest. -/
def value : Nat → Scanner (Json Float)
  | 0 => failure
  | depth + 1 => do
    let fuel := (← rest).length + 1
    if ← accept "[" then return .arr (← arrayItems (value depth) fuel)
    else if ← accept "\x7b" then
      blanks
      if ← accept "\x7d" then return .obj []
      return .obj (entriesToJson (← inlinePairs (value depth) fuel []))
    else scalar

/-- The tables so far and the path of the one that is open. -/
structure Document where
  entries : Entries
  current : List String

def line (d : Document) : Scanner Document := do
  blanks
  match (← rest).head? with
  | none | some '#' | some '\n' | some '\r' =>
    lineEnd
    return d
  | some '[' =>
    let repeated ← accept "[["
    if !repeated then char '['
    let (path, name) ← key
    blanks
    if repeated then literal "]]" else char ']'
    lineEnd
    let entries ← ((if repeated then openItem else openTable) path name d.entries : Option Entries)
    return ⟨entries, path ++ [name]⟩
  | some _ =>
    let (path, name) ← key
    blanks
    char '='
    blanks
    let v ← value 80
    lineEnd
    let entries ← (updateTable d.current (setValue path name v) d.entries : Option Entries)
    return { d with entries := entries }

def lines : Nat → Document → Scanner Document
  | 0, _ => failure
  | fuel + 1, d => do
    if (← rest).isEmpty then return d
    lines fuel (← line d)

/-- The value of a document; none if the text is malformed. A byte-order mark in front is skipped. -/
def parse? (text : String) : Option (Json Float) := do
  let cs := match text.toList with
    | '\uFEFF' :: cs => cs
    | cs => cs
  let (d, _) ← (lines (cs.length + 1) ⟨[], []⟩).run cs
  return .obj (entriesToJson d.entries)

end BendersPlanning.Toml
