/- # Content and shape

The bytes that stand for a program say where each of its parts ends. A count takes eight bytes, a
text ends in a byte that no text holds, and every list is written behind its length. So the bytes
of a part determine the part, whatever follows them, and two programs have the same bytes exactly
when they have the same shape.

Eight bytes hold a count only up to the number of their values. What is said here is therefore
about programs in which the length of every list fits a word, as it does for lists in memory.
-/

import Mathlib.Algebra.Group.Nat.Defs
import BlockCode.Proofs.Check.Shape

namespace BlockCode

/-- How many counts eight bytes tell apart. -/
def wordValues : Nat := 2 ^ 64

section Bytes

variable {rest rest' : List UInt8}

/-- The number that bytes stand for, the lowest first. -/
def readCount (bytes : List UInt8) : Nat :=
  bytes.foldr (fun byte n => byte.toNat + 256 * n) 0

theorem readCount_cons (byte : UInt8) (bytes : List UInt8) :
    readCount (byte :: bytes) = byte.toNat + 256 * readCount bytes :=
  rfl

/-- The lowest bytes of a number stand for what they can hold of it. -/
theorem readCount_lowestBytes (count n : Nat) :
    readCount ((List.range count).map fun i => UInt8.ofNat (n >>> (8 * i))) = n % 256 ^ count := by
  induction count generalizing n with
  | zero => exact (Nat.mod_one n).symm
  | succ count ih =>
      have hhead : (UInt8.ofNat (n >>> (8 * 0))).toNat = n % 256 := UInt8.toNat_ofNat'
      have htail : (List.range count).map (fun i => UInt8.ofNat (n >>> (8 * i.succ))) =
          (List.range count).map fun i => UInt8.ofNat ((n / 256) >>> (8 * i)) := by
        refine List.map_congr_left fun i _ => ?_
        rw [Nat.mul_succ, Nat.add_comm, Nat.shiftRight_add, Nat.shiftRight_eq_div_pow n]
      rw [List.range_succ_eq_map, List.map_cons, List.map_map, readCount_cons, hhead]
      simp only [Function.comp_def]
      rw [htail, ih, Nat.pow_succ', Nat.mod_mul]

theorem readCount_countBytes {n : Nat} (h : n < wordValues) : readCount (countBytes n) = n := by
  rw [countBytes, readCount_lowestBytes]
  exact Nat.mod_eq_of_lt h

theorem length_countBytes (n : Nat) : (countBytes n).length = 8 := by
  rw [countBytes, List.length_map, List.length_range]

theorem countBytes_append_inj {m n : Nat} (hm : m < wordValues) (hn : n < wordValues)
    (h : countBytes m ++ rest = countBytes n ++ rest') : m = n ∧ rest = rest' := by
  have hlength : (countBytes m).length = (countBytes n).length := by
    rw [length_countBytes, length_countBytes]
  obtain ⟨hbytes, hrest⟩ := List.append_inj h hlength
  refine ⟨?_, hrest⟩
  rw [← readCount_countBytes hm, hbytes, readCount_countBytes hn]

/-- What stands in front of the first byte that stops it, and what stands behind. -/
theorem append_cons_inj_of_stop {stop : UInt8} {bytes bytes' : List UInt8}
    (hbytes : stop ∉ bytes) (hbytes' : stop ∉ bytes')
    (h : bytes ++ stop :: rest = bytes' ++ stop :: rest') : bytes = bytes' ∧ rest = rest' := by
  induction bytes generalizing bytes' with
  | nil =>
      cases bytes' with
      | nil => exact ⟨rfl, (List.cons.inj h).2⟩
      | cons byte' bytes' =>
          obtain ⟨rfl, -⟩ := List.cons.inj h
          exact absurd (.head _) hbytes'
  | cons byte bytes ih =>
      cases bytes' with
      | nil =>
          obtain ⟨rfl, -⟩ := List.cons.inj h
          exact absurd (.head _) hbytes
      | cons byte' bytes' =>
          obtain ⟨rfl, htail⟩ := List.cons.inj h
          rw [List.mem_cons, not_or] at hbytes hbytes'
          obtain ⟨rfl, hrest⟩ := ih hbytes.2 hbytes'.2 htail
          exact ⟨rfl, hrest⟩

theorem toList_loop_eq (bytes : ByteArray) (i : Nat) (read : List UInt8) :
    ByteArray.toList.loop bytes i read = read.reverse ++ bytes.data.toList.drop i := by
  have hsize : bytes.data.toList.length = bytes.size := rfl
  fun_induction ByteArray.toList.loop bytes i read with
  | case1 i read hlt ih =>
      have hget : bytes.get! i = bytes.data.toList[i] := by
        rw [Array.getElem_toList]
        exact getElem!_pos bytes.data i hlt
      rw [ih, hget, List.reverse_cons, List.append_assoc, List.singleton_append,
        ← List.drop_eq_getElem_cons]
  | case2 i read hge => rw [List.drop_of_length_le (by omega), List.append_nil]

/-- The bytes of a text are those of its characters. -/
theorem toList_toUTF8 (text : String) :
    text.toUTF8.toList = text.toList.flatMap String.utf8EncodeChar := by
  have hbytes : text.toUTF8 = (text.toList.flatMap String.utf8EncodeChar).toByteArray :=
    String.utf8Encode_toList.symm
  rw [hbytes, ByteArray.toList, toList_loop_eq, List.reverse_nil, List.nil_append,
    List.drop_zero, List.data_toByteArray]

/-- The byte that ends a text is in no character. -/
theorem notMem_utf8EncodeChar (c : Char) : 0xFF ∉ String.utf8EncodeChar c := by
  have hne {n : Nat} (h : n % 256 ≠ 255) : (0xFF : UInt8) ≠ UInt8.ofNat n := fun heq =>
    h ((UInt8.toNat_ofNat' (n := n)).symm.trans (congrArg UInt8.toNat heq.symm))
  rw [String.utf8EncodeChar]
  split
  · rw [List.mem_singleton]
    exact hne (by omega)
  · split
    · simp only [List.mem_cons, List.not_mem_nil, or_false, not_or]
      exact ⟨hne (by omega), hne (by omega)⟩
    · split
      · simp only [List.mem_cons, List.not_mem_nil, or_false, not_or]
        exact ⟨hne (by omega), hne (by omega), hne (by omega)⟩
      · simp only [List.mem_cons, List.not_mem_nil, or_false, not_or]
        exact ⟨hne (by omega), hne (by omega), hne (by omega), hne (by omega)⟩

theorem notMem_toUTF8 (text : String) : 0xFF ∉ text.toUTF8.toList := by
  rw [toList_toUTF8, List.mem_flatMap]
  rintro ⟨c, -, hmem⟩
  exact notMem_utf8EncodeChar c hmem

theorem toList_toUTF8_injective {text text' : String}
    (h : text.toUTF8.toList = text'.toUTF8.toList) : text = text' := by
  rw [toList_toUTF8, toList_toUTF8] at h
  rw [← String.toByteArray_inj, ← String.utf8Encode_toList, ← String.utf8Encode_toList,
    List.utf8Encode, List.utf8Encode, h]

theorem textBytes_append_inj {text text' : String}
    (h : textBytes text ++ rest = textBytes text' ++ rest') : text = text' ∧ rest = rest' := by
  rw [textBytes, textBytes, List.append_assoc, List.append_assoc] at h
  obtain ⟨hbytes, hrest⟩ := append_cons_inj_of_stop (notMem_toUTF8 text) (notMem_toUTF8 text') h
  exact ⟨toList_toUTF8_injective hbytes, hrest⟩

/-- Texts one behind the other are told apart if it is known how many there are. -/
theorem flatMap_textBytes_append_inj {texts texts' : List String}
    (hlength : texts.length = texts'.length)
    (h : texts.flatMap textBytes ++ rest = texts'.flatMap textBytes ++ rest') :
    texts = texts' ∧ rest = rest' := by
  induction texts generalizing texts' with
  | nil =>
      cases texts' with
      | nil => exact ⟨rfl, h⟩
      | cons => cases hlength
  | cons text texts ih =>
      cases texts' with
      | nil => cases hlength
      | cons text' texts' =>
          rw [List.flatMap_cons, List.flatMap_cons, List.append_assoc, List.append_assoc] at h
          obtain ⟨rfl, htail⟩ := textBytes_append_inj h
          obtain ⟨rfl, hrest⟩ := ih (Nat.succ.inj hlength) htail
          exact ⟨rfl, hrest⟩

theorem idxOf_all_injective {kind kind' : StatementKind}
    (h : StatementKind.all.idxOf kind = StatementKind.all.idxOf kind') : kind = kind' :=
  (List.idxOf_inj kind.mem_all).mp h

theorem idxOf_all_lt (kind : StatementKind) : StatementKind.all.idxOf kind < wordValues :=
  Nat.lt_trans (List.idxOf_lt_length_of_mem kind.mem_all) (by decide)

/-- The bytes of a statement determine all that belongs to its shape. -/
theorem Statement.contentBytes_append_inj {s t : Statement} (hs : s.slots.length < wordValues)
    (ht : t.slots.length < wordValues) (h : s.contentBytes ++ rest = t.contentBytes ++ rest') :
    s.shape = t.shape ∧ rest = rest' := by
  simp only [contentBytes, List.append_assoc] at h
  obtain ⟨hkind, h⟩ := countBytes_append_inj (idxOf_all_lt s.kind) (idxOf_all_lt t.kind) h
  obtain ⟨hlength, h⟩ := countBytes_append_inj hs ht h
  obtain ⟨hslots, h⟩ := flatMap_textBytes_append_inj hlength h
  obtain ⟨hmark, hrest⟩ := List.cons.inj h
  have hconstant : s.isConstant = t.isConstant := by
    cases hleft : s.isConstant <;> cases hright : t.isConstant <;>
      simp [hleft, hright] at hmark ⊢
  refine ⟨?_, hrest⟩
  rw [shape, shape, idxOf_all_injective hkind, hslots, hconstant]

end Bytes

namespace Block

/-- The length of every list in the program fits a word, be it a list of statements or of slots. -/
def LengthsFit : Block → Prop
  | .nil => True
  | .cons head body next =>
    1 + next.width < wordValues ∧ head.slots.length < wordValues ∧ body.LengthsFit ∧
      next.LengthsFit

instance decidableLengthsFit : (b : Block) → Decidable b.LengthsFit
  | .nil => inferInstanceAs (Decidable True)
  | .cons head body next =>
    have := decidableLengthsFit body
    have := decidableLengthsFit next
    inferInstanceAs (Decidable (1 + next.width < wordValues ∧ head.slots.length < wordValues ∧
      body.LengthsFit ∧ next.LengthsFit))

theorem LengthsFit.width_lt {b : Block} (h : b.LengthsFit) : b.width < wordValues := by
  cases b with
  | nil => decide
  | cons head body next => exact h.1

theorem width_shape (b : Block) : b.shape.width = b.width := by
  induction b with
  | nil => rfl
  | cons head body next ihbody ihnext => exact congrArg (1 + ·) ihnext

theorem nestedBytes_shape (b : Block) : b.shape.nestedBytes = b.nestedBytes := by
  induction b with
  | nil => rfl
  | cons head body next ihbody ihnext =>
      rw [nestedBytes, ← ihbody, ← ihnext, ← width_shape body]
      rfl

/-- The bytes are those of the shape. -/
theorem contentBytes_shape (b : Block) : b.shape.contentBytes = b.contentBytes := by
  rw [contentBytes, contentBytes, width_shape, nestedBytes_shape]

/-- The bytes of as many statements determine the shapes of the statements and their nesting. -/
theorem nestedBytes_append_inj {p q : Block} {rest rest' : List UInt8} (hp : p.LengthsFit)
    (hq : q.LengthsFit) (hwidth : p.width = q.width)
    (h : p.nestedBytes ++ rest = q.nestedBytes ++ rest') : p.shape = q.shape ∧ rest = rest' := by
  induction p generalizing q rest rest' with
  | nil =>
      cases q with
      | nil => exact ⟨rfl, h⟩
      | cons head body next =>
          rw [width, width] at hwidth
          omega
  | cons head body next ihbody ihnext =>
      cases q with
      | nil =>
          rw [width, width] at hwidth
          omega
      | cons head' body' next' =>
          obtain ⟨-, hslots, hbody, hnext⟩ := hp
          obtain ⟨-, hslots', hbody', hnext'⟩ := hq
          simp only [nestedBytes, List.append_assoc] at h
          obtain ⟨hhead, h⟩ := Statement.contentBytes_append_inj hslots hslots' h
          obtain ⟨hcount, h⟩ := countBytes_append_inj hbody.width_lt hbody'.width_lt h
          obtain ⟨hinner, h⟩ := ihbody hbody hbody' hcount h
          obtain ⟨hafter, hrest⟩ := ihnext hnext hnext' (Nat.add_left_cancel hwidth) h
          refine ⟨?_, hrest⟩
          change cons head.shape body.shape next.shape = cons head'.shape body'.shape next'.shape
          rw [hhead, hinner, hafter]

/-- Two programs have the same bytes exactly when they have the same shape. -/
theorem contentBytes_eq_iff_sameShape {p q : Block} (hp : p.LengthsFit) (hq : q.LengthsFit) :
    p.contentBytes = q.contentBytes ↔ p.sameShape q = true := by
  rw [sameShape, beq_iff_eq]
  constructor
  · intro h
    obtain ⟨hwidth, hnested⟩ := countBytes_append_inj hp.width_lt hq.width_lt h
    refine (@nestedBytes_append_inj p q [] [] hp hq hwidth ?_).1
    rw [hnested]
  · intro hshape
    rw [← contentBytes_shape p, ← contentBytes_shape q, hshape]

/-- A loop with a statement in it. -/
def outputInLoop (id : String) : Block :=
  .ofNodes [
    ⟨⟨id, .whileLoop, ["x"], false, true⟩,
      .ofNodes [⟨⟨"2", .output, ["y", "z"], false, false⟩, .nil⟩]⟩,
    ⟨⟨"3", .endWhile, [], false, false⟩, .nil⟩]

/-- The same statements one behind the other. -/
def outputAfterLoop : Block :=
  .ofNodes [
    ⟨⟨"1", .whileLoop, ["x"], false, false⟩, .nil⟩,
    ⟨⟨"2", .output, ["y", "z"], false, false⟩, .nil⟩,
    ⟨⟨"3", .endWhile, [], false, false⟩, .nil⟩]

/-- Another identifier leaves the bytes as they are, and another nesting of the same statements does
not. -/
theorem contentBytes_eq_iff_sameShape_outputInLoop :
    (outputInLoop "1").LengthsFit ∧ (outputInLoop "one").LengthsFit ∧ outputAfterLoop.LengthsFit ∧
      (outputInLoop "1").contentBytes = (outputInLoop "one").contentBytes ∧
      (outputInLoop "1").contentBytes ≠ outputAfterLoop.contentBytes := by
  have hfit : (outputInLoop "1").LengthsFit := by decide
  have hfit' : (outputInLoop "one").LengthsFit := by decide
  have hflat : outputAfterLoop.LengthsFit := by decide
  refine ⟨hfit, hfit', hflat, (contentBytes_eq_iff_sameShape hfit hfit').mpr (by decide), ?_⟩
  exact (contentBytes_eq_iff_sameShape hfit hflat).not.mpr (by decide)

end Block

end BlockCode
