import Llama.ServerContext.StopWords

/-!
# Streamed and whole responses

In stream mode the content of a completion is sent in partial responses, and the final response has
none.  The text that is held back with the last token, since it ends inside a character or a stop
word may be completing, is never sent; and what the limit on the indentation cuts may have been
sent.  So both modes give the same content if and only if the last token flushes the text and no
line is cut.
-/

namespace Llama.TextSlot

open Unicode List

variable {params : TextParams} {slot : TextSlot} {tok : SampledToken} {toks : List SampledToken}
  {sent : List UInt8}

/-- The content of the final response. -/
def finalContent (stream : Bool) (slot : TextSlot) : List UInt8 :=
  if stream then [] else slot.generatedText

/-- The content of all the responses for a generation. -/
def content (stream : Bool) (params : TextParams) (toks : List SampledToken) : List UInt8 :=
  let r := new.generate params toks
  (if stream then r.2.flatten else []) ++ r.1.finalContent stream

/-- With the token the whole text is sent: it does not end inside a character, and the token is an
end token, or a stop word is found, or none may be completing. -/
def Flushes (params : TextParams) (slot : TextSlot) (tok : SampledToken) : Prop :=
  ¬ validateUtf8 (slot.generatedText ++ tok.piece) < (slot.generatedText ++ tok.piece).length ∧
    (tok.eog = true ∨ (∃ w ∈ params.antiprompt, windowFind
        ((slot.generatedText ++ tok.piece).drop slot.nSentText) tok.piece.length w ≠ none) ∨
      hasPartialStop params ((slot.generatedText ++ tok.piece).drop slot.nSentText) = false)

/-- Where the limit on the indentation cuts the text, behind the search for stop words. -/
def lineCut (params : TextParams) (slot : TextSlot) (tok : SampledToken) : Option ℕ :=
  (slot.searchText params tok).1.cutPos params

/-- What was sent is the first part of the text, and it does not end inside a character. -/
structure Streams (slot : TextSlot) (sent : List UInt8) : Prop where
  sent : sent = slot.generatedText.take slot.nSentText
  le : slot.nSentText ≤ slot.generatedText.length
  whole : slot.nSentText = slot.generatedText.length →
    ¬ validateUtf8 slot.generatedText < slot.generatedText.length

lemma streams_new : Streams new [] := ⟨rfl, Nat.le_refl _, fun _ => Nat.lt_irrefl 0⟩

lemma hasPartialStop_nil (params : TextParams) : hasPartialStop params [] = false := by
  refine Bool.eq_false_iff.mpr fun h => ?_
  obtain ⟨w, -, hw⟩ := any_eq_true.mp h
  cases hw

lemma cutPos_lt {pos : ℕ} (h : slot.cutPos params = some pos) :
    pos < slot.generatedText.length := by
  unfold cutPos at h
  dsimp only at h
  split_ifs at h with h1 h2
  obtain rfl := Option.some.inj h
  exact h2.1

/-- The text beyond what was sent is sent. -/
lemma take_append_drop_of_le {text : List UInt8} {n m : ℕ} (h : n ≤ m) :
    text.take n ++ (text.take m).drop n = text.take m := by
  have htake : text.take n = (text.take m).take n := by
    rw [take_take, Nat.min_eq_left h]
  rw [htake, take_append_drop]

/-- **The search** behind some text that was sent. -/
theorem Streams.searchText (params : TextParams) (tok : SampledToken) (h : Streams slot sent) :
    (Flushes params slot tok ∧ sent ++ ((slot.searchText params tok).2.getD []) =
          (slot.searchText params tok).1.generatedText ∧
        (slot.searchText params tok).1.nSentText =
          (slot.searchText params tok).1.generatedText.length ∧
        ((slot.searchText params tok).1.hasNextToken = true →
          ¬ validateUtf8 (slot.searchText params tok).1.generatedText <
            (slot.searchText params tok).1.generatedText.length)) ∨
      (¬ Flushes params slot tok ∧ sent ++ ((slot.searchText params tok).2.getD []) =
          (slot.searchText params tok).1.generatedText.take slot.nSentText ∧
        (slot.searchText params tok).1.nSentText = slot.nSentText ∧
        slot.nSentText < (slot.searchText params tok).1.generatedText.length) := by
  have hle : slot.nSentText ≤ (slot.generatedText ++ tok.piece).length := by
    rw [length_append]
    exact h.le.trans (Nat.le_add_right _ _)
  have hsent : sent = (slot.generatedText ++ tok.piece).take slot.nSentText := by
    rw [h.sent, take_append_of_le_length h.le]
  have hsearched := searched params tok h.le
  generalize slot.searchText params tok = r at hsearched ⊢
  cases hsearched with
  | inside hinside =>
    refine .inr ⟨fun hflush => hflush.1 hinside, (append_nil _).trans hsent, rfl, ?_⟩
    refine Nat.lt_of_le_of_ne hle fun heq => ?_
    change slot.nSentText = (slot.generatedText ++ tok.piece).length at heq
    -- nothing was appended to a text that was sent
    have hpiece : tok.piece = [] := by
      have hlength := h.le
      rw [length_append] at heq
      exact length_eq_zero_iff.mp (by omega)
    rw [hpiece, append_nil] at heq hinside
    exact h.whole heq hinside
  | heldBack hinside hnone heog hpart =>
    refine .inr ⟨?_, (append_nil _).trans hsent, rfl, ?_⟩
    · rintro ⟨-, heog' | ⟨w, hw, hfound⟩ | hnot⟩
      · rw [heog] at heog'
        cases heog'
      · exact hfound (hnone w hw)
      · rw [hpart] at hnot
        cases hnot
    · refine Nat.lt_of_le_of_ne hle fun heq => ?_
      change slot.nSentText = (slot.generatedText ++ tok.piece).length at heq
      rw [heq, drop_length, hasPartialStop_nil] at hpart
      cases hpart
  | sent hinside hnone hpart =>
    refine .inl ⟨⟨hinside, hpart.imp_right .inr⟩, ?_, rfl, fun _ => hinside⟩
    rw [hsent]
    exact take_append_drop _ _
  | @stopped w word pos hinside hw hpos =>
    refine .inl ⟨⟨hinside, .inr (.inl ⟨w, hw, by rw [hpos]; exact Option.some_ne_none _⟩)⟩, ?_, rfl,
      fun hfalse => (by cases hfalse)⟩
    rw [hsent]
    exact take_append_drop_of_le (Nat.le_add_right _ _)

lemma flatten_toList (text : Option (List UInt8)) : text.toList.flatten = text.getD [] := by
  cases text with
  | none => rfl
  | some text => exact append_nil text

/-- **A token** behind which the generation goes on. -/
theorem Streams.processToken (h : Streams slot sent)
    (hnext : (slot.processToken params tok).1.hasNextToken = true) :
    Streams (slot.processToken params tok).1
      (sent ++ (slot.processToken params tok).2.toList.flatten) := by
  obtain ⟨hn, htext, hgo, -⟩ := continues_eq hnext
  have hcontent : (slot.processToken params tok).2.toList.flatten =
      (slot.searchText params tok).2.getD [] := flatten_toList _
  rw [hcontent]
  rcases h.searchText params tok with ⟨-, hsent, hlength, hwhole⟩ | ⟨-, hsent, hn', hlt⟩
  · refine ⟨?_, ?_, fun _ => ?_⟩
    · rw [hsent, hn, htext, hlength, take_length]
    · rw [hn, htext, hlength]
    · rw [htext]
      exact hwhole hgo
  · refine ⟨?_, ?_, fun heq => ?_⟩
    · rw [hsent, hn, htext, hn']
    · rw [hn, htext, hn']
      exact hlt.le
    · rw [htext] at heq
      omega

/-- **A generation** that goes on. -/
theorem streams_of_goesOn (hgoes : GoesOn params new toks) :
    Streams (new.generate params toks).1 (new.generate params toks).2.flatten := by
  induction toks using reverseRecOn with
  | nil => exact streams_new
  | append_singleton toks tok ih =>
    have hstreams := ih fun toks' tok' h => hgoes toks' tok' (h.trans (prefix_append _ _))
    rw [generate_append]
    dsimp only [generate]
    rw [append_nil, flatten_append]
    exact hstreams.processToken (hgoes toks tok prefix_rfl)

/-- **The last token** of a generation: the partial responses give the content of the whole
response if and only if nothing is held back with it and no line is cut, or what is cut is just what
is held back. -/
theorem content_eq_iff (hgoes : GoesOn params new toks) :
    content true params (toks ++ [tok]) = content false params (toks ++ [tok]) ↔
      Flushes params (new.generate params toks).1 tok ∧
          lineCut params (new.generate params toks).1 tok = none ∨
        ¬ Flushes params (new.generate params toks).1 tok ∧
          lineCut params (new.generate params toks).1 tok =
            some (new.generate params toks).1.nSentText := by
  have hstreams := streams_of_goesOn hgoes
  unfold content finalContent
  rw [generate_append]
  dsimp only [generate]
  generalize (new.generate params toks).1 = slot at hstreams ⊢
  generalize (new.generate params toks).2 = contents at hstreams ⊢
  -- the text that is returned, and the text that was sent
  have htext : (slot.processToken params tok).1.generatedText =
      (slot.searchText params tok).1.cutText params := (checkLimits_eq params _ tok _).2.1
  have hcontent : (contents ++ ((slot.processToken params tok).2.toList ++ [])).flatten =
      contents.flatten ++ (slot.searchText params tok).2.getD [] := by
    rw [List.append_nil, List.flatten_append]
    exact congrArg _ (flatten_toList _)
  simp only [if_true, Bool.false_eq_true, if_false, List.append_nil, List.nil_append] at hcontent ⊢
  rw [hcontent, htext]
  unfold lineCut cutText
  rcases Streams.searchText params tok hstreams with
    ⟨hflush, hsent, hlength, -⟩ | ⟨hflush, hsent, hn, hlt⟩
  · rw [hsent]
    cases hcut : (slot.searchText params tok).1.cutPos params with
    | none => exact iff_of_true rfl (.inl ⟨hflush, rfl⟩)
    | some pos =>
      refine iff_of_false (fun heq => ?_) ?_
      · have hpos := cutPos_lt hcut
        have heq := congrArg List.length heq
        rw [List.length_take] at heq
        omega
      · rintro (⟨-, hnone⟩ | ⟨hnot, -⟩)
        · cases hnone
        · exact hnot hflush
  · rw [hsent]
    cases hcut : (slot.searchText params tok).1.cutPos params with
    | none =>
      refine iff_of_false (fun heq => ?_) ?_
      · have heq := congrArg List.length heq
        dsimp only at heq
        rw [List.length_take] at heq
        omega
      · rintro (⟨h, -⟩ | ⟨-, hsome⟩)
        · exact hflush h
        · cases hsome
    | some pos =>
      constructor
      · intro heq
        have heq := congrArg List.length heq
        rw [List.length_take, List.length_take] at heq
        exact .inr ⟨hflush, congrArg some (by omega)⟩
      · rintro (⟨h, -⟩ | ⟨-, hsome⟩)
        · exact absurd h hflush
        · rw [Option.some.inj hsome]

/-- A stop word of two bytes, a token that does not touch it, and a token with its first byte, with
which the budget is spent. -/
theorem content_eq_iff_budget :
    let params : TextParams := ⟨[[0x61, 0x62]], 0⟩
    let first : SampledToken := ⟨[0x78], false, false, false, false⟩
    let last : SampledToken := ⟨[0x61], false, false, true, false⟩
    content true params ([first] ++ [last]) = content false params ([first] ++ [last]) ↔
      Flushes params (new.generate params [first]).1 last ∧
          lineCut params (new.generate params [first]).1 last = none ∨
        ¬ Flushes params (new.generate params [first]).1 last ∧
          lineCut params (new.generate params [first]).1 last =
            some (new.generate params [first]).1.nSentText :=
  content_eq_iff (goesOn_singleton rfl)

/-- The byte that is held back is not sent in stream mode. -/
theorem not_content_eq_budget :
    let params : TextParams := ⟨[[0x61, 0x62]], 0⟩
    let first : SampledToken := ⟨[0x78], false, false, false, false⟩
    let last : SampledToken := ⟨[0x61], false, false, true, false⟩
    GoesOn params new [first] ∧
      ((new.generate params [first]).1.processToken params last).1.hasNextToken = false ∧
      content true params [first, last] ≠ content false params [first, last] :=
  ⟨goesOn_singleton rfl, rfl, by decide⟩

end Llama.TextSlot
