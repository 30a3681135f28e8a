/- # Keeping renderings

An editor renders again after every change, and many changes leave the code as it was. A
rendering is kept under the content of the program, which identifiers and editor marks are no
part of, and under its target. Failures are not kept.
-/

import BlockCode.Program.Shape
import BlockCode.Target.Render

namespace BlockCode

/-- A rendering that is kept. -/
structure CacheEntry where
  content : List UInt8
  target : Target
  code : String
  deriving DecidableEq, Repr

/-- The renderings that are kept, all with the same settings, and how many requests they have
answered. -/
structure RenderCache where
  options : RenderOptions := {}
  entries : List CacheEntry := []
  hits : Nat := 0
  deriving DecidableEq, Repr

namespace RenderCache

variable (cache : RenderCache)

/-- The code that is kept for a program and a target. -/
def find? (program : Block) (target : Target) : Option String :=
  (cache.entries.find? fun entry =>
    entry.content == program.contentBytes && entry.target == target).map CacheEntry.code

/-- The code of a program, taken from the cache if it is there. -/
def render (program : Block) (target : Target) : Except RenderError String × RenderCache :=
  match cache.find? program target with
  | some code => (.ok code, { cache with hits := cache.hits + 1 })
  | none =>
    match program.render target cache.options with
    | .error e => (.error e, cache)
    | .ok code =>
      (.ok code,
        { cache with entries := ⟨program.contentBytes, target, code⟩ :: cache.entries })

/-- Drops every rendering of another content than the program's. -/
def retain (program : Block) : RenderCache :=
  { cache with
    entries := cache.entries.filter fun entry => entry.content == program.contentBytes }

/-- Drops every rendering. -/
def clear : RenderCache :=
  { cache with entries := [] }

/-- The number of renderings that are kept. -/
def size : Nat :=
  cache.entries.length

end RenderCache

end BlockCode
