/- # What a cache answers

A cache of renderings is asked for renderings and told to drop some or all of what it keeps, in any
order. Whatever it keeps was rendered for a program that it has been asked for, under the content
of that program. So, as long as content tells the programs apart that differ in more than
identifiers and editor marks, a program with distinct identifiers is answered as if there were no
cache.

Identifiers are no part of the content. A program in which one occurs twice has a finding, and yet
a cache that knows a program of the same shape without that finding answers with its code.
-/

import BlockCode.Proofs.Target.Shape
import BlockCode.Target.Cache

namespace BlockCode

/-- What a user asks of a cache. -/
inductive CacheRequest where
  | render (program : Block) (target : Target)
  | retain (program : Block)
  | clear
  deriving DecidableEq, Repr

/-- The program that a request wants rendered. -/
def CacheRequest.rendered : CacheRequest → List Block
  | .render program _ => [program]
  | .retain _ | .clear => []

/-- Content tells the programs apart: two of the same content have the same shape. -/
def ContentDistinguishes (programs : List Block) : Prop :=
  ∀ a ∈ programs, ∀ b ∈ programs, a.contentBytes = b.contentBytes → a.sameShape b = true

namespace RenderCache

/-- The cache behind a request. -/
def serve (cache : RenderCache) : CacheRequest → RenderCache
  | .render program target => (cache.render program target).2
  | .retain program => cache.retain program
  | .clear => cache.clear

/-- The cache behind several requests. -/
def serveAll (cache : RenderCache) (requests : List CacheRequest) : RenderCache :=
  requests.foldl serve cache

theorem render_of_find?_eq_some {cache : RenderCache} {program : Block} {target : Target}
    {code : String} (h : cache.find? program target = some code) :
    (cache.render program target).1 = .ok code := by
  rw [render, h]

/-- What the cache does not have, it renders. -/
theorem render_of_find?_eq_none {cache : RenderCache} {program : Block} {target : Target}
    (h : cache.find? program target = none) :
    (cache.render program target).1 = program.render target cache.options := by
  rw [render, h]
  cases program.render target cache.options <;> rfl

/-- Everything in the cache is the rendering of one of the programs, kept under its content. -/
structure Earned (cache : RenderCache) (options : RenderOptions) (programs : List Block) :
    Prop where
  settings : cache.options = options
  entries : ∀ entry ∈ cache.entries, ∃ program ∈ programs,
    program.contentBytes = entry.content ∧ program.render entry.target options = .ok entry.code

namespace Earned

variable {cache : RenderCache} {options : RenderOptions} {programs : List Block}

theorem empty : Earned { options := options } options programs :=
  ⟨rfl, by simp⟩

/-- What is found was rendered for one of the programs. -/
theorem exists_of_find? (h : cache.Earned options programs) {program : Block} {target : Target}
    {code : String} (hfind : cache.find? program target = some code) :
    ∃ known ∈ programs, known.contentBytes = program.contentBytes ∧
      known.render target options = .ok code := by
  obtain ⟨entry, hentry, rfl⟩ := Option.map_eq_some_iff.mp hfind
  have hkey := List.find?_some hentry
  rw [Bool.and_eq_true, beq_iff_eq, beq_iff_eq] at hkey
  obtain ⟨known, hknown, hcontent, hrender⟩ := h.entries entry (List.mem_of_find?_eq_some hentry)
  rw [hkey.2] at hrender
  exact ⟨known, hknown, hcontent.trans hkey.1, hrender⟩

/-- A request adds at most the rendering of its own program. -/
theorem serve (h : cache.Earned options programs) (request : CacheRequest) :
    (cache.serve request).Earned options (programs ++ request.rendered) := by
  have hkept : ∀ entry ∈ cache.entries, ∃ program ∈ programs ++ request.rendered,
      program.contentBytes = entry.content ∧
        program.render entry.target options = .ok entry.code := by
    intro entry hentry
    obtain ⟨program, hprogram, hspec⟩ := h.entries entry hentry
    exact ⟨program, List.mem_append_left _ hprogram, hspec⟩
  cases request with
  | render program target =>
      rw [RenderCache.serve, render]
      split
      · exact ⟨h.settings, hkept⟩
      · split
        · exact ⟨h.settings, hkept⟩
        · rename_i code hrender
          rw [h.settings] at hrender
          refine ⟨h.settings, ?_⟩
          rw [List.forall_mem_cons]
          refine ⟨⟨program, ?_, rfl, hrender⟩, hkept⟩
          exact List.mem_append_right _ (List.mem_singleton_self program)
  | retain program =>
      refine ⟨h.settings, ?_⟩
      intro entry hentry
      exact hkept entry (List.mem_of_mem_filter hentry)
  | clear => exact ⟨h.settings, by simp [RenderCache.serve, clear]⟩

/-- After any requests the cache has only renderings of the programs in them. -/
theorem serveAll (h : cache.Earned options programs) (requests : List CacheRequest) :
    (cache.serveAll requests).Earned options
      (programs ++ requests.flatMap CacheRequest.rendered) := by
  induction requests generalizing cache programs with
  | nil => simpa [RenderCache.serveAll] using h
  | cons request requests ih =>
      have hrest := ih (h.serve request)
      rwa [List.append_assoc, ← List.flatMap_cons] at hrest

end Earned

/-- After any requests, a program with distinct identifiers is answered as without a cache, with
the same code or the same error. A program in which an identifier occurs twice is so answered, or
with the code of a program of its shape that was asked for before. -/
theorem render_serveAll (options : RenderOptions) (requests : List CacheRequest)
    (program : Block) (target : Target)
    (hcontent : ContentDistinguishes (program :: requests.flatMap CacheRequest.rendered)) :
    let answer := ((serveAll { options := options } requests).render program target).1
    (program.ids.Nodup → answer = program.render target options) ∧
      (answer = program.render target options ∨
        ∃ known ∈ requests.flatMap CacheRequest.rendered, known.sameShape program = true ∧
          answer = known.render target options) := by
  have hearned : (serveAll { options := options } requests).Earned options
      (requests.flatMap CacheRequest.rendered) := by
    have hempty : Earned { options := options } options [] := .empty
    exact hempty.serveAll requests
  intro answer
  cases hfind : (serveAll { options := options } requests).find? program target with
  | none =>
      have hanswer : answer = program.render target options := by
        rw [← hearned.settings]
        exact render_of_find?_eq_none hfind
      exact ⟨fun _ => hanswer, .inl hanswer⟩
  | some code =>
      obtain ⟨known, hknown, hbytes, hrender⟩ := hearned.exists_of_find? hfind
      have hanswer : answer = .ok code := render_of_find?_eq_some hfind
      have hshape : known.sameShape program = true :=
        hcontent known (.tail _ hknown) program (.head _) hbytes
      constructor
      · intro hnodup
        rw [hanswer, Block.render_eq_ok_of_shape_eq target (eq_of_beq hshape).symm hnodup hrender]
      · exact .inr ⟨known, hknown, hshape, hanswer.trans hrender.symm⟩

/-- Two statements that put out a number each, under the given identifiers. -/
def twoOutputs (first second : String) : Block :=
  .cons ⟨first, .output, ["1"], false, false⟩ .nil
    (.cons ⟨second, .output, ["2"], false, false⟩ .nil .nil)

/-- A cache that was asked for two statements and told to keep them answers with their code when it
is asked for them under other identifiers. -/
theorem render_serveAll_twoOutputs :
    let requests : List CacheRequest :=
      [.render (twoOutputs "a" "b") .python, .retain (twoOutputs "a" "b")]
    ContentDistinguishes (twoOutputs "c" "d" :: requests.flatMap CacheRequest.rendered) ∧
      (twoOutputs "c" "d").ids.Nodup ∧
      ((serveAll {} requests).render (twoOutputs "c" "d") .python).1 =
        (twoOutputs "c" "d").render .python {} := by
  intro requests
  have hcontent : ContentDistinguishes
      (twoOutputs "c" "d" :: requests.flatMap CacheRequest.rendered) := by
    unfold ContentDistinguishes
    decide +kernel
  have hnodup : (twoOutputs "c" "d").ids.Nodup := by decide
  exact ⟨hcontent, hnodup, (render_serveAll {} requests _ .python hcontent).1 hnodup⟩

/-- It also answers with their code when it is asked for them under one and the same identifier,
which is refused without a cache. -/
theorem render_serveAll_repeatedId :
    let requests : List CacheRequest := [.render (twoOutputs "a" "b") .python]
    ContentDistinguishes (twoOutputs "a" "a" :: requests.flatMap CacheRequest.rendered) ∧
      ((serveAll {} requests).render (twoOutputs "a" "a") .python).1 =
        .ok "print(1)\nprint(2)\n" ∧
      (twoOutputs "a" "a").render .python {} =
        .error (.invalidProgram [⟨2, "a", .duplicateId "a" 1⟩]) := by
  unfold ContentDistinguishes
  decide +kernel

end RenderCache

end BlockCode
