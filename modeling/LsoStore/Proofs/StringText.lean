import LsoStore.StringBuffer
import LsoStore.Proofs.FilesList
import LsoStore.ServerApi

/-!
# The text in a string's block

A block one byte longer than its text holds the text and a terminator, and every call
keeps it so. `su_string_from_literal` alone leaves that last byte as the allocation
left it. The first call after it writes the terminator where it appends or empties;
one that shrinks the string looks for the terminator, and does not find it in the
block.
-/

namespace LsoStore.UString

/-- The text a call makes of another: what was appended since the string was last
emptied. -/
def textAfter (text : List UInt8) : StringCall → List UInt8
  | .suAppendChars literal => text ++ literal.val
  | .suReallocZero => []
  | .suStringShrinktofit => text

/-- The text is in the block and ends there, and its length is known and found. -/
structure HoldsText (text : List UInt8) (string : UString) : Prop where
  size : string.data.length = string.len + 1
  text : string.data.take string.len = text
  terminated : string.data[string.len]? = some 0
  strlen : suStrlen string = .ret (string.len, string)

section Block

variable {text : List UInt8} {b : UInt8}

theorem strlen_append (h : 0 ∉ text) : strlen (text ++ [b]) =
    if b = 0 then .ret text.length else .fault := by
  have hnone : text.findIdx? (· = 0) = none := by
    rw [List.findIdx?_eq_none_iff]
    intro c hc
    exact decide_eq_false fun hzero => h (hzero ▸ hc)
  rw [strlen, List.findIdx?_append, hnone, List.findIdx?_singleton]
  by_cases hb : b = 0
  · rw [if_pos hb]
    simp [hb]
  · rw [if_neg hb]
    simp [hb]

/-- Bytes written to the end of a block. -/
theorem copy_to_end {data front bytes : List UInt8}
    (h : data.length = front.length + bytes.length) (hfront : data.take front.length = front) :
    copy data front.length bytes = .ret (front ++ bytes) := by
  rw [copy, Region.store_of_le (by omega), hfront, List.drop_eq_nil_of_le (by omega),
    List.append_nil]

end Block

section Calls

variable {text : List UInt8} {b : UInt8} {call : StringCall}

theorem suStringFromLiteral_eq (literal : CStr) (fresh : Nat → UInt8) :
    suStringFromLiteral (some literal) fresh =
      if literal.val.length + 1 > muLimit then .exit
      else .ret ⟨literal.val ++ [fresh literal.val.length], literal.val.length⟩ := by
  rw [suStringFromLiteral, muMalloc]
  split
  · rfl
  · have hcopy : copy (Region.resize [] (literal.val.length + 1) fresh) 0 literal.val =
        .ret (literal.val ++ [fresh literal.val.length]) := by
      rw [copy, Region.store_of_le (by rw [Region.resize_length]; omega)]
      dsimp only
      rw [Region.resize, List.take_zero, List.take_nil, List.nil_append, List.nil_append,
        Nat.zero_add, List.length_nil, Nat.sub_zero, List.range'_concat, List.map_append,
        List.drop_left' (by rw [List.length_map, List.length_range'])]
      simp
    rw [Course.ret_bind, hcopy]
    rfl

theorem suRealloc_of_gt (string : UString) {newsize : Nat} (h : newsize + 1 > muLimit)
    (fresh : Nat → UInt8) : suRealloc string newsize fresh = .exit := by
  rw [suRealloc, muRealloc, if_pos h]
  rfl

/-- What is kept of the block is its front. -/
theorem suRealloc_of_le (string : UString) {newsize : Nat} (h : ¬ newsize + 1 > muLimit)
    (fresh : Nat → UInt8) :
    ∃ front, suRealloc string newsize fresh = .ret (0, ⟨front ++ [0], newsize⟩) ∧
      front.length = newsize ∧
      ∀ n ≤ newsize, n ≤ string.data.length → front.take n = string.data.take n := by
  have hsize : (Region.resize string.data (newsize + 1) fresh).length = newsize + 1 :=
    Region.resize_length ..
  have hlen : ((Region.resize string.data (newsize + 1) fresh).take newsize).length =
      newsize := by
    rw [List.length_take, hsize, Nat.min_eq_left (Nat.le_succ newsize)]
  refine ⟨_, ?_, hlen, fun n hn hn' => ?_⟩
  · have hcopy : copy (Region.resize string.data (newsize + 1) fresh) newsize [0] =
        .ret ((Region.resize string.data (newsize + 1) fresh).take newsize ++ [0]) := by
      conv => lhs; rw [← hlen]
      refine copy_to_end ?_ ?_
      · rw [hlen]
        exact hsize
      · rw [hlen]
    rw [suRealloc, muRealloc, if_neg h, Course.ret_bind, hcopy]
    rfl
  · rw [List.take_take, Nat.min_eq_left hn, Region.resize_take _ fresh (by omega) hn']

/-- Appending to a text, whatever byte stands behind it. -/
theorem suAppendChars_eq (text : List UInt8) (b : UInt8) (literal : CStr) (fresh : Nat → UInt8) :
    suAppendChars ⟨text ++ [b], text.length⟩ (some literal) fresh =
      match appendChars text (some literal.val) with
      | none => .exit
      | some text' => .ret (0, ⟨text' ++ [0], text'.length⟩) := by
  have hlen : (text ++ [b]).length = text.length + 1 := List.length_append
  rw [suAppendChars, appendChars]
  dsimp only
  rw [suStringExtend]
  split
  · next hnil =>
      -- no new block: the terminator goes to the byte that is there
      have hcopy := @copy_to_end (text ++ [b]) text [0] hlen (List.take_left ..)
      rw [Course.ret_bind, if_neg (not_not.mpr rfl), List.eq_nil_of_length_eq_zero hnil,
        List.nil_append, hcopy]
      rfl
  · next hne =>
      by_cases hlimit : text.length + literal.val.length + 1 > muLimit
      · rw [suRealloc_of_gt _ hlimit, if_pos hlimit]
        rfl
      · rw [if_neg hlimit]
        obtain ⟨front, hret, hfront, hkept⟩ := suRealloc_of_le ⟨text ++ [b], text.length⟩
          hlimit fresh
        have htext := hkept text.length (Nat.le_add_right _ _) (by dsimp only; omega)
        dsimp only at htext
        rw [List.take_left] at htext
        have hcopy : copy (front ++ [0]) text.length (literal.val ++ [0]) =
            .ret (text ++ (literal.val ++ [0])) := by
          refine copy_to_end ?_ ?_
          · rw [List.length_append, List.length_append, hfront, Nat.add_assoc]
          · rw [List.take_append_of_le_length (by omega), htext]
        rw [hret, Course.ret_bind, if_neg (not_not.mpr rfl), hcopy, ← List.append_assoc]
        dsimp only
        rw [List.length_append]
        rfl

/-- The client's buffers are texts that are appended to. -/
theorem suAppendChars_client {α : Type} (text : List UInt8) (literal : CStr)
    (k : List UInt8 → ClientM α) :
    LsoStore.suAppendChars text literal.val k =
      match appendChars text (some literal.val) with
      | none => .exit
      | some text' => k text' := by
  rw [LsoStore.suAppendChars, appendChars, LsoStore.muRealloc]
  split
  · rfl
  · split <;> rfl

/-- Shrinking a terminated text leaves it as it is. -/
theorem suStringShrinktofit_eq (h : 0 ∉ text) (fresh : Nat → UInt8) :
    suStringShrinktofit ⟨text ++ [b], text.length⟩ fresh =
      if b = 0 then
        if text.length + 1 > muLimit then .exit else .ret (0, ⟨text ++ [0], text.length⟩)
      else .fault := by
  rw [suStringShrinktofit, suStrlen, strlen_append h]
  split
  · next hb =>
      show suRealloc ⟨text ++ [b], text.length⟩ text.length fresh = _
      split
      · next hlimit => exact suRealloc_of_gt _ hlimit fresh
      · next hlimit =>
          obtain ⟨front, hret, hfront, hkept⟩ := suRealloc_of_le ⟨text ++ [b], text.length⟩
            hlimit fresh
          have htext := hkept text.length (Nat.le_refl _)
            (by dsimp only; rw [List.length_append]; omega)
          dsimp only at htext
          rw [List.take_left, ← hfront, List.take_length] at htext
          rw [hret, htext]
  · rfl

theorem not_mem_textAfter (h : 0 ∉ text) (call : StringCall) : 0 ∉ textAfter text call := by
  cases call with
  | suAppendChars literal =>
      rw [textAfter, List.mem_append, not_or]
      exact ⟨h, literal.property⟩
  | suReallocZero => exact List.not_mem_nil
  | suStringShrinktofit => exact h

theorem stringCalls_cons {string string' : UString} {fresh : Nat → UInt8} {res : Int}
    (h : stringCall string fresh call = .ret (res, string'))
    (calls : List ((Nat → UInt8) × StringCall)) :
    stringCalls string ((fresh, call) :: calls) = stringCalls string' calls := by
  rw [stringCalls, h]
  rfl

/-- A call on a text that ends, or one that does not look for its end. -/
theorem stringCall_spec (h : 0 ∉ text) (call : StringCall)
    (hcall : b = 0 ∨ call ≠ .suStringShrinktofit) (fresh : Nat → UInt8) :
    stringCall ⟨text ++ [b], text.length⟩ fresh call = .exit ∨
      ∃ res, stringCall ⟨text ++ [b], text.length⟩ fresh call =
        .ret (res, ⟨textAfter text call ++ [0], (textAfter text call).length⟩) := by
  cases call with
  | suAppendChars literal =>
      rw [stringCall, suAppendChars_eq]
      cases happ : appendChars text (some literal.val) with
      | none => exact .inl rfl
      | some text' =>
          have heq := appendChars_eq_some happ
          rw [Option.getD_some] at heq
          rw [heq]
          exact .inr ⟨0, rfl⟩
  | suReallocZero =>
      rw [stringCall]
      by_cases hlimit : 0 + 1 > muLimit
      · exact .inl (suRealloc_of_gt _ hlimit fresh)
      · obtain ⟨front, hret, hfront, -⟩ := suRealloc_of_le ⟨text ++ [b], text.length⟩ hlimit fresh
        rw [List.eq_nil_of_length_eq_zero hfront] at hret
        exact .inr ⟨0, hret⟩
  | suStringShrinktofit =>
      have hb : b = 0 := hcall.resolve_right fun hne => hne rfl
      rw [stringCall, suStringShrinktofit_eq h, if_pos hb]
      split
      · exact .inl rfl
      · exact .inr ⟨0, rfl⟩

theorem stringCalls_spec (h : 0 ∉ text) (calls : List ((Nat → UInt8) × StringCall)) :
    stringCalls ⟨text ++ [0], text.length⟩ calls = .exit ∨
      ∃ text', 0 ∉ text' ∧ text' = (calls.map Prod.snd).foldl textAfter text ∧
        stringCalls ⟨text ++ [0], text.length⟩ calls = .ret ⟨text' ++ [0], text'.length⟩ := by
  induction calls generalizing text with
  | nil => exact .inr ⟨text, h, rfl, rfl⟩
  | cons c calls ih =>
      obtain ⟨fresh, call⟩ := c
      rw [List.map_cons, List.foldl_cons]
      rcases stringCall_spec h call (.inl rfl) fresh with hexit | ⟨res, hret⟩
      · refine .inl ?_
        rw [stringCalls, hexit]
        rfl
      · rw [stringCalls_cons hret]
        exact ih (not_mem_textAfter h call)

theorem holdsText (h : 0 ∉ text) : HoldsText text ⟨text ++ [0], text.length⟩ where
  size := by rw [List.length_append]; rfl
  text := List.take_left ..
  terminated := List.getElem?_concat_length
  strlen := by
    rw [suStrlen, strlen_append h, if_pos rfl]
    rfl

end Calls

/-- What a literal's string is after some calls. -/
def callsOnLiteral (literal : CStr) (fresh : Nat → UInt8)
    (calls : List ((Nat → UInt8) × StringCall)) : Course UString := do
  let string ← suStringFromLiteral (some literal) fresh
  stringCalls string calls

/-- The calls leave the right text, unless an allocation ends the process. -/
def KeepsText (literal : CStr) (fresh : Nat → UInt8)
    (calls : List ((Nat → UInt8) × StringCall)) : Prop :=
  match callsOnLiteral literal fresh calls with
  | .ret string => HoldsText ((calls.map Prod.snd).foldl textAfter literal.val) string
  | .exit => True
  | .fault => False
  | .running => False

/-- The text is as it should be just where the allocation happens to have left a zero
behind the literal, or the first call writes one, or there was no allocation. -/
theorem string_text_iff (literal : CStr) (fresh : Nat → UInt8)
    (calls : List ((Nat → UInt8) × StringCall)) :
    KeepsText literal fresh calls ↔
      literal.val.length + 1 > muLimit ∨ fresh literal.val.length = 0 ∨
        ∃ c rest, calls = c :: rest ∧ c.2 ≠ .suStringShrinktofit := by
  rw [KeepsText, callsOnLiteral, suStringFromLiteral_eq]
  by_cases hlimit : literal.val.length + 1 > muLimit
  · rw [if_pos hlimit]
    exact iff_of_true trivial (.inl hlimit)
  · rw [if_neg hlimit, Course.ret_bind, or_iff_right hlimit]
    generalize fresh literal.val.length = b
    cases calls with
    | nil =>
        constructor
        · intro hholds
          have hlast := hholds.terminated
          dsimp only at hlast
          rw [List.getElem?_concat_length, Option.some_inj] at hlast
          exact .inl hlast
        · intro h
          rcases h with rfl | ⟨c, rest, hnil, -⟩
          · exact holdsText literal.property
          · cases hnil
    | cons c calls =>
        obtain ⟨fresh', call⟩ := c
        have hiff : (b = 0 ∨ ∃ c rest, (fresh', call) :: calls = c :: rest ∧
            c.2 ≠ .suStringShrinktofit) ↔ (b = 0 ∨ call ≠ .suStringShrinktofit) := by
          simp
        rw [hiff]
        by_cases hcall : b = 0 ∨ call ≠ .suStringShrinktofit
        · refine iff_of_true ?_ hcall
          rcases stringCall_spec literal.property call hcall fresh' with hexit | ⟨res, hret⟩
          · rw [stringCalls, hexit]
            trivial
          · rw [stringCalls_cons hret]
            rcases stringCalls_spec (not_mem_textAfter literal.property call) calls with
              hexit | ⟨text', hzero, htext, hret'⟩
            · rw [hexit]
              trivial
            · rw [hret', List.map_cons, List.foldl_cons, ← htext]
              exact holdsText hzero
        · refine iff_of_false ?_ hcall
          rw [not_or, not_not] at hcall
          obtain ⟨hb, rfl⟩ := hcall
          rw [stringCalls, stringCall, suStringShrinktofit_eq literal.property, if_neg hb]
          exact id

/-- A literal of one character in a block that comes with another byte than 0. -/
theorem literal_unterminated :
    callsOnLiteral ⟨[97], by decide⟩ (fun _ => 1) [] = .ret ⟨[97, 1], 1⟩ ∧
      ¬ KeepsText ⟨[97], by decide⟩ (fun _ => 1) [] := by
  have hret : callsOnLiteral ⟨[97], by decide⟩ (fun _ => 1) [] = .ret ⟨[97, 1], 1⟩ := rfl
  refine ⟨hret, fun h => ?_⟩
  rw [KeepsText, hret] at h
  have hlast := h.terminated
  exact absurd hlast (by decide)

end LsoStore.UString
