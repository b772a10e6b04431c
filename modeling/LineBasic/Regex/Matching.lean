import LineBasic.Regex.Anchor

/-!
# Matching

A `Regex` matches stretches of a text. `Regex.ends` follows all matches at once: from the places
where they may begin it gives those where they may end, so it needs no choices to be undone. A place
in a text of `n` characters is a number up to `n`. A `CharSet` is built from ranges, and
`CharSet.contains` is its meaning: a character belongs to it or does not.
-/

namespace LineBasic

/-! ## Sets of characters -/

inductive CharSet where
  | empty
  /-- The characters from `first` to `last`, both included. -/
  | range (first last : Char)
  | union (a b : CharSet)
  | intersection (a b : CharSet)
  | difference (a b : CharSet)
  | complement (a : CharSet)
  /-- With every ASCII letter also the other case of it. -/
  | caseless (a : CharSet)
  deriving DecidableEq, Repr

namespace CharSet

def contains : CharSet → Char → Bool
  | empty, _ => false
  | range first last, c => first ≤ c && c ≤ last
  | union a b, c => a.contains c || b.contains c
  | intersection a b, c => a.contains c && b.contains c
  | difference a b, c => a.contains c && !b.contains c
  | complement a, c => !a.contains c
  | caseless a, c => a.contains c || a.contains c.toLower || a.contains c.toUpper

instance : Membership Char CharSet := ⟨fun s c => s.contains c = true⟩

def single (c : Char) : CharSet := range c c

def all : CharSet := complement empty

def ofRanges (ranges : List (Char × Char)) : CharSet :=
  ranges.foldr (fun (first, last) s => union (range first last) s) empty

def symmetricDifference (a b : CharSet) : CharSet := union (difference a b) (difference b a)

/-- The set names characters, and is not only combined from the empty one. -/
def isInhabited : CharSet → Bool
  | empty => false
  | range .. => true
  | union a b | intersection a b | difference a b => a.isInhabited || b.isInhabited
  | complement a | caseless a => a.isInhabited

theorem mem_union {a b : CharSet} {c : Char} : c ∈ union a b ↔ c ∈ a ∨ c ∈ b := by
  simp [Membership.mem, contains]

theorem mem_complement {a : CharSet} {c : Char} : c ∈ complement a ↔ c ∉ a := by
  simp [Membership.mem, contains]

end CharSet

/-! ## Expressions -/

inductive Regex where
  | empty
  | one (s : CharSet)
  | anchor (a : Anchor)
  | concat (first second : Regex)
  | either (first second : Regex)
  /-- From `least` up to `most` matches of the body, one after the other. -/
  | repeated (least : Nat) (most : Option Nat) (body : Regex)
  /-- The body, whose matches are to be told apart. -/
  | captured (body : Regex)
  deriving DecidableEq, Repr

/-! ## Places -/

/-- Adds places to others, each place once. -/
def joinPlaces (places more : List Nat) : List Nat :=
  places ++ (more.filter fun i => !places.contains i).eraseDups

/-- All that `step` reaches from `places` in up to `n` steps. -/
def reachWithin (step : List Nat → List Nat) : Nat → List Nat → List Nat
  | 0, places => places
  | n + 1, places =>
    let grown := joinPlaces places (step places)
    if grown.length = places.length then places else reachWithin step n grown

namespace Regex

/-- More repetitions than `size + 1` reach no other places in a text of that size. -/
def usefulCount (size n : Nat) : Nat := min n (size + 1)

/-- The places where a match that begins at one of `places` may end. -/
def ends (text : Array Char) : Regex → List Nat → List Nat
  | empty, places => places
  | one s, places => (places.filter fun i => text[i]?.any s.contains).map (· + 1)
  | anchor a, places =>
    places.filter fun i => a.holds (if i = 0 then none else text[i - 1]?) text[i]?
  | concat first second, places => second.ends text (first.ends text places)
  | either first second, places => joinPlaces (first.ends text places) (second.ends text places)
  | repeated least most body, places =>
    let step := body.ends text
    let reached := Nat.repeat step (usefulCount text.size least) places
    let extra := most.elim (text.size + 1) fun most => usefulCount text.size (most - least)
    reachWithin step extra reached
  | captured body, places => body.ends text places

/-- The expression matches some stretch of the text. -/
def isMatch (r : Regex) (text : String) : Bool :=
  let characters := text.toList.toArray
  !(r.ends characters (List.range (characters.size + 1))).isEmpty

end Regex
end LineBasic
