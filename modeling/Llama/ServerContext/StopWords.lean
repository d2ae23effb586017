import Llama.ServerContext.Text

/-!
# Stop words

The search for stop words is skipped while the text ends inside a character, but it looks back only
as far as a stop word and the last piece reach.  So the first stop word of the text is found if and
only if it ends in the last piece, or where that begins.
-/

namespace Llama.TextSlot

open List

variable {params : TextParams} {slot : TextSlot} {tok : SampledToken}
  {toks : List SampledToken} {text : List UInt8} {last : ℕ}

/-! ## The search -/

/-- The first occurrence of a word in the part of the text that is searched. -/
def windowFind (text : List UInt8) (last : ℕ) (word : List UInt8) : Option ℕ :=
  Occurs.find text word (text.length - (word.length + last))

/-- A word was found: the slot stops. -/
def stopAt (slot : TextSlot) (word : List UInt8) : TextSlot :=
  { slot with stop := .word, stoppingWord := word, hasNextToken := false }

lemma considerWord_eq (r : TextSlot × Option ℕ) (word : List UInt8) :
    considerWord text last r word = match windowFind text last word with
      | some pos => if r.2.all fun stopPos => pos < stopPos then (r.1.stopAt word, some pos) else r
      | none => r := by
  have hfrom : (if word.length + last < text.length then text.length - (word.length + last) else 0) =
      text.length - (word.length + last) := by
    split_ifs with h
    · rfl
    · omega
  unfold considerWord windowFind
  dsimp only
  rw [hfrom]
  rfl

/-- The least of the places that were found, and the slot. -/
inductive Found (text : List UInt8) (last : ℕ) (words : List (List UInt8)) (slot : TextSlot) :
    TextSlot × Option ℕ → Prop
  | none (h : ∀ w ∈ words, windowFind text last w = none) : Found text last words slot (slot, none)
  | some {w word : List UInt8} {pos : ℕ} (hw : w ∈ words) (hpos : windowFind text last w = some pos)
      (hle : ∀ w' ∈ words, ∀ pos', windowFind text last w' = some pos' → pos ≤ pos') :
      Found text last words slot (slot.stopAt word, some pos)

lemma found_findFullStop (params : TextParams) (slot : TextSlot) (text : List UInt8) (last : ℕ) :
    Found text last params.antiprompt slot (slot.findFullStop params text last) := by
  unfold findFullStop
  induction params.antiprompt using reverseRecOn with
  | nil => exact .none fun w hw => absurd hw not_mem_nil
  | append_singleton words word ih =>
    rw [foldl_append, foldl_cons, considerWord_eq]
    generalize List.foldl (considerWord text last) (slot, Option.none) words = r at ih ⊢
    cases hfind : windowFind text last word with
    | none =>
      cases ih with
      | none h =>
        refine .none fun w hw => ?_
        rcases mem_append.mp hw with hw | hw
        · exact h w hw
        · rw [mem_singleton.mp hw, hfind]
      | some hw hpos hle =>
        refine .some (mem_append_left _ hw) hpos fun w' hw' pos' hpos' => ?_
        rcases mem_append.mp hw' with hw' | hw'
        · exact hle w' hw' pos' hpos'
        · rw [mem_singleton.mp hw', hfind] at hpos'
          cases hpos'
    | some pos =>
      cases ih with
      | none h =>
        refine .some (mem_append_right _ mem_cons_self) hfind fun w' hw' pos' hpos' => ?_
        rcases mem_append.mp hw' with hw' | hw'
        · rw [h w' hw'] at hpos'
          cases hpos'
        · rw [mem_singleton.mp hw', hfind] at hpos'
          exact (Option.some.inj hpos').le
      | @some w word' stopPos hw hpos hle =>
        dsimp only
        split_ifs with hlt
        · have hlt : pos < stopPos := of_decide_eq_true hlt
          refine .some (mem_append_right _ mem_cons_self) hfind
            fun w' hw' pos' hpos' => ?_
          rcases mem_append.mp hw' with hw' | hw'
          · exact hlt.le.trans (hle w' hw' pos' hpos')
          · rw [mem_singleton.mp hw', hfind] at hpos'
            exact (Option.some.inj hpos').le
        · have hlt : ¬ pos < stopPos := fun h => hlt (decide_eq_true h)
          refine .some (mem_append_left _ hw) hpos fun w' hw' pos' hpos' => ?_
          rcases mem_append.mp hw' with hw' | hw'
          · exact hle w' hw' pos' hpos'
          · rw [mem_singleton.mp hw', hfind] at hpos'
            obtain rfl := Option.some.inj hpos'
            exact Nat.le_of_not_lt hlt

/-- The slot with a longer text. -/
def extend (slot : TextSlot) (piece : List UInt8) : TextSlot :=
  { slot with generatedText := slot.generatedText ++ piece, hasNextToken := true }

/-- The slot with its text cut. -/
def cut (slot : TextSlot) (n : ℕ) : TextSlot :=
  { slot with generatedText := slot.generatedText.take n }

/-- The slot with all of its text sent. -/
def sendAll (slot : TextSlot) : TextSlot := { slot with nSentText := slot.generatedText.length }

lemma sendAll_eq (h : slot.nSentText ≤ slot.generatedText.length) :
    { slot with nSentText := slot.nSentText + (slot.generatedText.drop slot.nSentText).length } =
      slot.sendAll := by
  have hlength : slot.nSentText + (slot.generatedText.drop slot.nSentText).length =
      slot.generatedText.length := by
    rw [length_drop]
    omega
  rw [hlength]
  rfl

/-- **The search**, of a slot that has not sent more than its text. -/
inductive Searched (params : TextParams) (slot : TextSlot) (tok : SampledToken) :
    TextSlot × Option (List UInt8) → Prop
  /-- The text ends inside a character. -/
  | inside (h : Unicode.validateUtf8 (slot.generatedText ++ tok.piece) <
        (slot.generatedText ++ tok.piece).length) :
      Searched params slot tok (slot.extend tok.piece, none)
  /-- A stop word was found. -/
  | stopped {w word : List UInt8} {pos : ℕ}
      (h : ¬ Unicode.validateUtf8 (slot.generatedText ++ tok.piece) <
        (slot.generatedText ++ tok.piece).length)
      (hw : w ∈ params.antiprompt)
      (hpos : windowFind ((slot.generatedText ++ tok.piece).drop slot.nSentText) tok.piece.length w =
        some pos)
      (hle : ∀ w' ∈ params.antiprompt, ∀ pos',
        windowFind ((slot.generatedText ++ tok.piece).drop slot.nSentText) tok.piece.length w' =
          some pos' → pos ≤ pos') :
      Searched params slot tok
        ((((slot.extend tok.piece).stopAt word).cut (slot.nSentText + pos)).sendAll,
          some (((slot.generatedText ++ tok.piece).take (slot.nSentText + pos)).drop slot.nSentText))
  /-- No stop word was found, and the text is held back. -/
  | heldBack
      (h : ¬ Unicode.validateUtf8 (slot.generatedText ++ tok.piece) <
        (slot.generatedText ++ tok.piece).length)
      (hnone : ∀ w ∈ params.antiprompt,
        windowFind ((slot.generatedText ++ tok.piece).drop slot.nSentText) tok.piece.length w = none)
      (heog : tok.eog = false)
      (hpart : hasPartialStop params ((slot.generatedText ++ tok.piece).drop slot.nSentText)) :
      Searched params slot tok (slot.extend tok.piece, some [])
  /-- No stop word was found, and the text is sent. -/
  | sent
      (h : ¬ Unicode.validateUtf8 (slot.generatedText ++ tok.piece) <
        (slot.generatedText ++ tok.piece).length)
      (hnone : ∀ w ∈ params.antiprompt,
        windowFind ((slot.generatedText ++ tok.piece).drop slot.nSentText) tok.piece.length w = none)
      (hpart : tok.eog = true ∨
        hasPartialStop params ((slot.generatedText ++ tok.piece).drop slot.nSentText) = false) :
      Searched params slot tok
        ((slot.extend tok.piece).sendAll,
          some ((slot.generatedText ++ tok.piece).drop slot.nSentText))

lemma searched (params : TextParams) (tok : SampledToken)
    (hsent : slot.nSentText ≤ slot.generatedText.length) :
    Searched params slot tok (slot.searchText params tok) := by
  have hle : slot.nSentText ≤ (slot.generatedText ++ tok.piece).length := by
    rw [length_append]
    omega
  unfold searchText
  dsimp only
  split_ifs with hinside
  · exact .inside hinside
  · have hfound := found_findFullStop params (slot.extend tok.piece)
      ((slot.generatedText ++ tok.piece).drop slot.nSentText) tok.piece.length
    rw [Nat.min_eq_left hle]
    unfold extend at hfound
    generalize findFullStop params _ _ _ = r at hfound ⊢
    cases hfound with
    | none hnone =>
      dsimp only
      split_ifs with hback
      · obtain ⟨hback, hpart⟩ := Bool.and_eq_true_iff.mp hback
        refine .heldBack hinside hnone ?_ hpart
        exact Bool.eq_false_iff.mpr fun heog => by simp [heog] at hback
      · have hpart : tok.eog = true ∨
            hasPartialStop params ((slot.generatedText ++ tok.piece).drop slot.nSentText) = false := by
          by_contra hnot
          rw [not_or, Bool.not_eq_true, Bool.not_eq_false] at hnot
          refine hback ?_
          rw [hnot.1, hnot.2]
          rfl
        have heq := sendAll_eq (show (slot.extend tok.piece).nSentText ≤
          (slot.extend tok.piece).generatedText.length from hle)
        have hs := Searched.sent hinside hnone hpart
        rw [← heq] at hs
        exact hs
    | @some w word pos hw hpos hleast =>
      have hcut : slot.nSentText ≤
          ((slot.generatedText ++ tok.piece).take (slot.nSentText + pos)).length := by
        rw [length_take]
        omega
      have heq := sendAll_eq (show (((slot.extend tok.piece).stopAt word).cut
        (slot.nSentText + pos)).nSentText ≤ (((slot.extend tok.piece).stopAt word).cut
          (slot.nSentText + pos)).generatedText.length from hcut)
      have hs : Searched params slot tok
          ((((slot.extend tok.piece).stopAt word).cut (slot.nSentText + pos)).sendAll, _) :=
        .stopped hinside hw hpos hleast
      rw [← heq] at hs
      have hmin : min slot.nSentText
          ((slot.generatedText ++ tok.piece).take (slot.nSentText + pos)).length =
            slot.nSentText := Nat.min_eq_left hcut
      simp only [stopAt, hmin]
      exact hs

/-! ## The other stop conditions -/

/-- The text is kept, and the generation does not go on if it had stopped. -/
structure Keeps (s s' : TextSlot) : Prop where
  sent : s'.nSentText = s.nSentText
  text : s'.generatedText = s.generatedText
  next : s'.hasNextToken = true → s.hasNextToken = true

lemma Keeps.trans {s s' s'' : TextSlot} (h : Keeps s s') (h' : Keeps s' s'') : Keeps s s'' :=
  ⟨h'.sent.trans h.sent, h'.text.trans h.text, fun hnext => h.next (h'.next hnext)⟩

lemma keeps_checkContext (params : TextParams) (slot : TextSlot) (tok : SampledToken) :
    Keeps slot (slot.checkContext tok) ∧
      (slot.checkContext tok).cutPos params = slot.cutPos params := by
  unfold checkContext
  split_ifs
  · exact ⟨⟨rfl, rfl, fun h => absurd h Bool.false_ne_true⟩, rfl⟩
  · exact ⟨⟨rfl, rfl, fun h => h⟩, rfl⟩

lemma keeps_checkBudget (params : TextParams) (slot : TextSlot) (tok : SampledToken) :
    Keeps slot (slot.checkBudget tok) ∧
      (slot.checkBudget tok).cutPos params = slot.cutPos params := by
  unfold checkBudget
  split_ifs
  · exact ⟨⟨rfl, rfl, fun h => absurd h Bool.false_ne_true⟩, rfl⟩
  · exact ⟨⟨rfl, rfl, fun h => h⟩, rfl⟩

lemma keeps_checkNewLine (slot : TextSlot) (tok : SampledToken) (text : List UInt8) :
    Keeps slot (slot.checkNewLine tok text) := by
  unfold checkNewLine
  split_ifs
  · exact ⟨rfl, rfl, fun h => absurd h Bool.false_ne_true⟩
  · exact ⟨rfl, rfl, fun h => h⟩
  · exact ⟨rfl, rfl, fun h => h⟩

lemma keeps_checkEog (slot : TextSlot) (tok : SampledToken) :
    Keeps slot (slot.checkEog tok) ∧ ((slot.checkEog tok).hasNextToken = true → tok.eog = false) := by
  unfold checkEog
  split_ifs with heog
  · exact ⟨⟨rfl, rfl, fun h => (by cases h)⟩, fun h => (by cases h)⟩
  · exact ⟨⟨rfl, rfl, fun h => h⟩, fun _ => Bool.eq_false_iff.mpr heog⟩

/-- The text behind the check of the indentation. -/
def cutText (params : TextParams) (slot : TextSlot) : List UInt8 :=
  match slot.cutPos params with
  | some pos => slot.generatedText.take pos
  | none => slot.generatedText

/-- The check of the indentation cuts the text, and stops, or only looks for the next line. -/
lemma checkIndent_eq (params : TextParams) (slot : TextSlot) :
    (slot.checkIndent params).nSentText = slot.nSentText ∧
    (slot.checkIndent params).generatedText = slot.cutText params ∧
    ((slot.checkIndent params).hasNextToken = true →
      slot.hasNextToken = true ∧ slot.cutPos params = none) := by
  unfold checkIndent cutText
  split_ifs with hindent
  · cases hcut : slot.cutPos params with
    | none =>
      dsimp only
      cases Occurs.find slot.generatedText [0x0A] slot.lastNlPos with
      | none => exact ⟨rfl, rfl, fun h => ⟨h, rfl⟩⟩
      | some pos => exact ⟨rfl, rfl, fun h => ⟨h, rfl⟩⟩
    | some pos =>
      dsimp only
      cases Occurs.find (slot.generatedText.take pos) [0x0A] slot.limit.lastNlPos with
      | none => exact ⟨rfl, rfl, fun h => absurd h Bool.false_ne_true⟩
      | some pos => exact ⟨rfl, rfl, fun h => absurd h Bool.false_ne_true⟩
  · have hnone : slot.cutPos params = none := by
      exact if_neg fun h => hindent ⟨h.1, h.2.1⟩
    rw [hnone]
    exact ⟨rfl, rfl, fun h => ⟨h, rfl⟩⟩

/-- **The other stop conditions.** -/
theorem checkLimits_eq (params : TextParams) (slot : TextSlot) (tok : SampledToken)
    (text : List UInt8) :
    (slot.checkLimits params tok text).nSentText = slot.nSentText ∧
    (slot.checkLimits params tok text).generatedText = slot.cutText params ∧
    ((slot.checkLimits params tok text).hasNextToken = true →
      slot.hasNextToken = true ∧ slot.cutPos params = none ∧ tok.eog = false) := by
  obtain ⟨hcontext, hcut1⟩ := keeps_checkContext params slot tok
  obtain ⟨hbudget, hcut2⟩ := keeps_checkBudget params (slot.checkContext tok) tok
  have hbefore := hcontext.trans hbudget
  have hcut := hcut2.trans hcut1
  unfold checkLimits
  generalize (slot.checkContext tok).checkBudget tok = s at hbefore hcut ⊢
  obtain ⟨hsent, htext, hnext⟩ := checkIndent_eq params s
  have hline := keeps_checkNewLine (s.checkIndent params) tok text
  obtain ⟨heog, hnot⟩ := keeps_checkEog ((s.checkIndent params).checkNewLine tok text) tok
  have hafter := hline.trans heog
  refine ⟨hafter.sent.trans (hsent.trans hbefore.sent), ?_, fun h => ?_⟩
  · rw [hafter.text, htext]
    unfold cutText
    rw [hcut, hbefore.text]
  · obtain ⟨h1, hnone⟩ := hnext (hafter.next h)
    exact ⟨hbefore.next h1, hcut.symm.trans hnone, hnot h⟩

/-! ## Generations -/

/-- The text of some tokens. -/
def textOf (toks : List SampledToken) : List UInt8 := toks.flatMap SampledToken.piece

/-- All of the tokens let the generation go on. -/
def GoesOn (params : TextParams) (slot : TextSlot) (toks : List SampledToken) : Prop :=
  ∀ toks' tok, toks' ++ [tok] <+: toks →
    ((slot.generate params toks').1.processToken params tok).1.hasNextToken = true

/-- The text does not end inside a character, and has a stop word. -/
def Hits (params : TextParams) (text : List UInt8) : Prop :=
  ¬ Unicode.validateUtf8 text < text.length ∧ ∃ w ∈ params.antiprompt, ∃ i, Occurs.At w text i

/-- None of the tokens completed a stop word. -/
def Quiet (params : TextParams) (toks : List SampledToken) : Prop :=
  ∀ toks', toks' ≠ [] → toks' <+: toks → ¬ Hits params (textOf toks')

/-- No stop word begins in the part of the text that was sent. -/
def Safe (params : TextParams) (slot : TextSlot) : Prop :=
  ∀ u, ∀ w ∈ params.antiprompt, ∀ i, Occurs.At w (slot.generatedText ++ u) i → slot.nSentText ≤ i

/-- The invariant of a generation that goes on. -/
structure Going (params : TextParams) (toks : List SampledToken) (slot : TextSlot) : Prop where
  text : slot.generatedText = textOf toks
  sent : slot.nSentText ≤ slot.generatedText.length
  safe : Safe params slot

lemma textOf_append (toks toks' : List SampledToken) :
    textOf (toks ++ toks') = textOf toks ++ textOf toks' := flatMap_append

lemma textOf_singleton (tok : SampledToken) : textOf [tok] = tok.piece :=
  flatMap_singleton _ _

lemma generate_append (params : TextParams) (slot : TextSlot) (toks toks' : List SampledToken) :
    slot.generate params (toks ++ toks') = (((slot.generate params toks).1.generate params toks').1,
        (slot.generate params toks).2 ++ ((slot.generate params toks).1.generate params toks').2) := by
  induction toks generalizing slot with
  | nil => rfl
  | cons tok toks ih =>
    rw [cons_append, generate, ih]
    dsimp only [generate]
    rw [append_assoc]

lemma going_new (params : TextParams) : Going params [] new :=
  ⟨rfl, Nat.le_refl _, fun _ _ _ _ _ => Nat.zero_le _⟩

/-- A word in the text beyond what was sent. -/
lemma windowFind_eq_some_iff {n pos : ℕ} {w : List UInt8} (hn : n ≤ text.length) :
    windowFind (text.drop n) last w = some pos ↔
      Occurs.At w text (n + pos) ∧ text.length ≤ n + pos + w.length + last ∧
        ∀ j, n ≤ j → text.length ≤ j + w.length + last → Occurs.At w text j → n + pos ≤ j := by
  unfold windowFind
  rw [Occurs.find_eq_some_iff, Occurs.at_drop_iff hn, length_drop]
  refine and_congr_right fun _ => and_congr (by omega) ⟨fun h j hj hlast hat => ?_, fun h j hj hat => ?_⟩
  · obtain ⟨k, rfl⟩ := Nat.exists_eq_add_of_le hj
    have hle := h k (by omega) ((Occurs.at_drop_iff hn).mpr hat)
    omega
  · have hle := h (n + j) (Nat.le_add_right _ _) (by omega) ((Occurs.at_drop_iff hn).mp hat)
    omega

/-- `string_find_partial_stop` finds a beginning of the word at the end of the text. -/
lemma isSome_findPartialStop {str word : List UInt8} (h : Occurs.Begins word str) :
    (findPartialStop str word).isSome := by
  obtain ⟨n, hpos, hle, hsuffix⟩ := h
  have hlength := hsuffix.length_le
  rw [length_take] at hlength
  have hstr : str ≠ [] := ne_nil_of_length_pos (by omega)
  have hword : word ≠ [] := ne_nil_of_length_pos (by omega)
  rw [findPartialStop, if_pos ⟨hstr, hword⟩, Option.isSome_map, find?_isSome]
  refine ⟨n, mem_reverse.mpr (mem_range'_1.mpr ⟨hpos, by omega⟩), ?_⟩
  refine Bool.and_eq_true_iff.mpr ⟨decide_eq_true ?_, isSuffixOf_iff_suffix.mpr hsuffix⟩
  -- the last byte of the beginning is the last byte of the text
  obtain ⟨front, rfl⟩ := hsuffix
  have htake : word.take n ≠ [] := ne_nil_of_length_pos (by rw [length_take]; omega)
  rw [getLast?_append_of_ne_nil _ htake, getLast?_eq_getElem?, length_take,
    Nat.min_eq_left hle, getElem?_take_of_lt (by omega)]

/-- A token behind which the generation goes on. -/
lemma continues_eq (hnext : (slot.processToken params tok).1.hasNextToken = true) :
    (slot.processToken params tok).1.nSentText = (slot.searchText params tok).1.nSentText ∧
    (slot.processToken params tok).1.generatedText = (slot.searchText params tok).1.generatedText ∧
    (slot.searchText params tok).1.hasNextToken = true ∧ tok.eog = false := by
  obtain ⟨hsent', htext, hgo⟩ := checkLimits_eq params (slot.searchText params tok).1 tok
    ((slot.searchText params tok).2.getD tok.piece)
  obtain ⟨h, hnone, heog⟩ := hgo hnext
  refine ⟨hsent', htext.trans ?_, h, heog⟩
  unfold cutText
  rw [hnone]

/-- A longer text begins with the text. -/
lemma Safe.extend (h : Safe params slot) (piece : List UInt8) :
    Safe params (slot.extend piece) := fun u w hw i hat =>
  h (piece ++ u) w hw i (by rw [← append_assoc]; exact hat)

/-- What is sent when no stop word may be completing. -/
lemma Safe.sendAll (h : Safe params slot)
    (hnot : ∀ w ∈ params.antiprompt, ∀ i, ¬ Occurs.At w slot.generatedText i)
    (hpart : hasPartialStop params (slot.generatedText.drop slot.nSentText) = false) :
    Safe params slot.sendAll := by
  intro u w hw i hat
  refine Nat.le_of_not_lt fun hlt => ?_
  have hold := h u w hw i hat
  by_cases hend : i + w.length ≤ slot.generatedText.length
  · exact hnot w hw i ((Occurs.at_append_iff hend).mp hat)
  · have hbegins := Occurs.begins_of_at_append hat hlt (Nat.lt_of_not_le hend) hold
    have hsome := isSome_findPartialStop hbegins
    have hany : hasPartialStop params (slot.generatedText.drop slot.nSentText) = true :=
      any_eq_true.mpr ⟨w, hw, hsome⟩
    rw [hpart] at hany
    cases hany

/-- **A token** behind which the generation goes on keeps the invariant. -/
theorem Going.processToken (h : Going params toks slot)
    (hquiet : ¬ Hits params (textOf (toks ++ [tok])))
    (hnext : (slot.processToken params tok).1.hasNextToken = true) :
    Going params (toks ++ [tok]) (slot.processToken params tok).1 := by
  obtain ⟨hsent, htext, hgo, heog⟩ := continues_eq hnext
  have hfull : textOf (toks ++ [tok]) = slot.generatedText ++ tok.piece := by
    rw [textOf_append, textOf_singleton, h.text]
  have hle : slot.nSentText ≤ (slot.generatedText ++ tok.piece).length := by
    rw [length_append]
    exact h.sent.trans (Nat.le_add_right _ _)
  have hkey : ∀ r : TextSlot, r.nSentText ≤ r.generatedText.length →
      r.generatedText = slot.generatedText ++ tok.piece → Safe params r →
      (slot.searchText params tok).1 = r → Going params (toks ++ [tok])
        (slot.processToken params tok).1 := fun r hr hrtext hsafe heq => by
    rw [heq] at hsent htext
    refine ⟨htext.trans (hrtext.trans hfull.symm), ?_, ?_⟩
    · rw [hsent, htext]
      exact hr
    · unfold Safe
      rw [hsent, htext]
      exact hsafe
  have hsearched := searched params tok h.sent
  generalize hr : slot.searchText params tok = r at hsearched hgo hkey
  cases hsearched with
  | inside hinside => exact hkey _ hle rfl (h.safe.extend _) rfl
  | stopped => cases hgo
  | heldBack => exact hkey _ hle rfl (h.safe.extend _) rfl
  | sent hinside hnone hpart =>
    refine hkey _ (Nat.le_refl _) rfl ((h.safe.extend _).sendAll (fun w hw i hat => ?_) ?_) rfl
    · exact hquiet ⟨by rw [hfull]; exact hinside, w, hw, i, by rw [hfull]; exact hat⟩
    · exact hpart.resolve_left (by rw [heog]; exact Bool.false_ne_true)

/-- **A generation** that goes on. -/
theorem going_of_goesOn (hgoes : GoesOn params new toks) (hquiet : Quiet params toks) :
    Going params toks (new.generate params toks).1 := by
  induction toks using reverseRecOn with
  | nil => exact going_new params
  | append_singleton toks tok ih =>
    have hgoing := ih (fun toks' tok' h => hgoes toks' tok' (h.trans (prefix_append _ _)))
      fun toks' hne h => hquiet toks' hne (h.trans (prefix_append _ _))
    rw [generate_append]
    exact hgoing.processToken (hquiet _ (append_ne_nil_of_right_ne_nil _ (cons_ne_nil _ _))
      prefix_rfl) (hgoes toks tok prefix_rfl)

/-! ## Stopping -/

/-- The token stops the generation if its text does not end inside a character and has a stop word,
and only then: the text is cut at the first one, of which no part was sent before.  It is then the
text that is returned, unless the limit on the indentation cuts it further. -/
def StopsRight (params : TextParams) (slot : TextSlot) (tok : SampledToken) : Prop :=
  (Hits params (slot.generatedText ++ tok.piece) →
    ∃ i, Occurs.First params.antiprompt (slot.generatedText ++ tok.piece) i ∧ slot.nSentText ≤ i ∧
      (slot.searchText params tok).1.generatedText = (slot.generatedText ++ tok.piece).take i ∧
      (params.nIndent ≤ 0 → (slot.processToken params tok).1.generatedText =
        (slot.generatedText ++ tok.piece).take i) ∧
      (slot.searchText params tok).1.hasNextToken = false ∧
      (slot.processToken params tok).1.hasNextToken = false) ∧
  (¬ Hits params (slot.generatedText ++ tok.piece) →
    (slot.searchText params tok).1.generatedText = slot.generatedText ++ tok.piece ∧
      (slot.searchText params tok).1.hasNextToken = true)

/-- A stop word that is the first of the text ends in the last piece, or where that begins. -/
def EndsInLast (params : TextParams) (text : List UInt8) (last : ℕ) : Prop :=
  ∃ w ∈ params.antiprompt, ∃ i, Occurs.First params.antiprompt text i ∧ Occurs.At w text i ∧
    text.length ≤ i + w.length + last

/-- If the first stop word ends in the last piece, then it is found. -/
lemma first_of_endsInLast (hgoing : Going params toks slot)
    (h : EndsInLast params (slot.generatedText ++ tok.piece) tok.piece.length) :
    ∃ w ∈ params.antiprompt, ∃ pos,
      windowFind ((slot.generatedText ++ tok.piece).drop slot.nSentText) tok.piece.length w =
        some pos ∧
      Occurs.First params.antiprompt (slot.generatedText ++ tok.piece) (slot.nSentText + pos) := by
  have hle : slot.nSentText ≤ (slot.generatedText ++ tok.piece).length := by
    rw [length_append]
    exact hgoing.sent.trans (Nat.le_add_right _ _)
  obtain ⟨w, hw, i, hfirst, hat, hend⟩ := h
  obtain ⟨pos, rfl⟩ := Nat.exists_eq_add_of_le (hgoing.safe tok.piece w hw i hat)
  refine ⟨w, hw, pos, (windowFind_eq_some_iff hle).mpr ⟨hat, hend, fun j _ _ hj => ?_⟩, hfirst⟩
  exact hfirst.le w hw j hj

/-- **A token** after which the text has its first stop word. -/
theorem Going.stopsRight (hgoing : Going params toks slot) :
    StopsRight params slot tok ↔ (Hits params (slot.generatedText ++ tok.piece) →
      EndsInLast params (slot.generatedText ++ tok.piece) tok.piece.length) := by
  have hle : slot.nSentText ≤ (slot.generatedText ++ tok.piece).length := by
    rw [List.length_append]
    exact hgoing.sent.trans (Nat.le_add_right _ _)
  have hsearched := searched params tok hgoing.sent
  obtain ⟨-, htext, hgo⟩ := checkLimits_eq params (slot.searchText params tok).1 tok
    ((slot.searchText params tok).2.getD tok.piece)
  have hindent : params.nIndent ≤ 0 → (slot.processToken params tok).1.generatedText =
      (slot.searchText params tok).1.generatedText := fun hnot => by
    refine htext.trans ?_
    unfold cutText cutPos
    rw [if_neg fun h => absurd h.2.1 (Int.not_lt.mpr hnot)]
  have hstop : (slot.searchText params tok).1.hasNextToken = false →
      (slot.processToken params tok).1.hasNextToken = false := fun hfalse => by
    refine Bool.eq_false_iff.mpr fun hnext => ?_
    rw [(hgo hnext).1] at hfalse
    cases hfalse
  -- nothing is found
  have hquiet : (∀ w ∈ params.antiprompt,
      windowFind ((slot.generatedText ++ tok.piece).drop slot.nSentText) tok.piece.length w = none) →
      (slot.searchText params tok).1.generatedText = slot.generatedText ++ tok.piece →
      (slot.searchText params tok).1.hasNextToken = true → (StopsRight params slot tok ↔
        (Hits params (slot.generatedText ++ tok.piece) →
          EndsInLast params (slot.generatedText ++ tok.piece) tok.piece.length)) := by
    intro hnone hsame hnext
    constructor
    · intro hstops hhits
      obtain ⟨i, -, -, -, -, hfalse, -⟩ := hstops.1 hhits
      rw [hnext] at hfalse
      cases hfalse
    · intro hends
      refine ⟨fun hhits => ?_, fun _ => ⟨hsame, hnext⟩⟩
      obtain ⟨w, hw, pos, hpos, -⟩ := first_of_endsInLast hgoing (hends hhits)
      rw [hnone w hw] at hpos
      cases hpos
  generalize hr : slot.searchText params tok = r at hsearched hindent hstop hquiet
  cases hsearched with
  | inside hinside =>
    have hnot : ¬ Hits params (slot.generatedText ++ tok.piece) := fun h => h.1 hinside
    refine iff_of_true ⟨fun h => absurd h hnot, fun _ => ?_⟩ fun h => absurd h hnot
    rw [hr]
    exact ⟨rfl, rfl⟩
  | heldBack hinside hnone => exact hquiet hnone rfl rfl
  | sent hinside hnone => exact hquiet hnone rfl rfl
  | @stopped w word pos hinside hw hpos hleast =>
    obtain ⟨hat, hend, -⟩ := (windowFind_eq_some_iff hle).mp hpos
    have hhits : Hits params (slot.generatedText ++ tok.piece) := ⟨hinside, w, hw, _, hat⟩
    constructor
    · intro hstops _
      obtain ⟨i, hfirst, -, hcut, -⟩ := hstops.1 hhits
      rw [hr] at hcut
      have hlength : ((slot.generatedText ++ tok.piece).take (slot.nSentText + pos)).length =
          ((slot.generatedText ++ tok.piece).take i).length := congrArg List.length hcut
      obtain ⟨w', -, hat'⟩ := hfirst.occurs
      rw [List.length_take, List.length_take, Nat.min_eq_left hat.2, Nat.min_eq_left hat'.2] at hlength
      rw [← hlength] at hfirst
      exact ⟨w, hw, _, hfirst, hat, hend⟩
    · intro hends
      refine ⟨fun _ => ?_, fun hnot => absurd hhits hnot⟩
      obtain ⟨w', hw', pos', hpos', hfirst⟩ := first_of_endsInLast hgoing (hends hhits)
      have h1 := hleast w' hw' pos' hpos'
      have h2 := hfirst.le w hw _ hat
      obtain rfl : pos = pos' := by omega
      refine ⟨slot.nSentText + pos, hfirst, Nat.le_add_right _ _, ?_, fun hnot => ?_, ?_, hstop rfl⟩
      · rw [hr]
        rfl
      · rw [hindent hnot]
        rfl
      · rw [hr]
        rfl

lemma eq_singleton_of_isPrefix {l : List SampledToken} (h : l <+: [tok]) (hne : l ≠ []) :
    l = [tok] :=
  h.eq_of_length_le (length_pos_of_ne_nil hne)

lemma goesOn_singleton (h : (slot.processToken params tok).1.hasNextToken = true) :
    GoesOn params slot [tok] := by
  intro toks' tok' hle
  have heq := eq_singleton_of_isPrefix hle (append_ne_nil_of_right_ne_nil _ (cons_ne_nil _ _))
  obtain ⟨rfl, rfl⟩ := append_singleton_inj.mp (heq.trans (nil_append [tok]).symm)
  exact h

lemma quiet_singleton (h : ¬ Hits params tok.piece) : Quiet params [tok] := by
  intro toks' hne hle
  rw [eq_singleton_of_isPrefix hle hne, textOf_singleton]
  exact h

/-- **A generation** that went on, and none of whose tokens completed a stop word: the next token
stops it at the first stop word, if and only if that ends in the last piece. -/
theorem stopsRight_iff (hgoes : GoesOn params new toks) (hquiet : Quiet params toks) :
    StopsRight params (new.generate params toks).1 tok ↔ (Hits params (textOf (toks ++ [tok])) →
        EndsInLast params (textOf (toks ++ [tok])) tok.piece.length) := by
  have hgoing := going_of_goesOn hgoes hquiet
  rw [textOf_append, textOf_singleton, ← hgoing.text]
  exact hgoing.stopsRight

/-- Two new lines are a stop word, and come with two tokens. -/
theorem stopsRight_iff_newLines :
    let params : TextParams := ⟨[[0x0A, 0x0A]], 0⟩
    let first : SampledToken := ⟨[0x78, 0x0A], false, false, false, false⟩
    let second : SampledToken := ⟨[0x0A, 0x79], false, false, false, false⟩
    StopsRight params (new.generate params [first]).1 second ↔
      (Hits params (textOf ([first] ++ [second])) →
        EndsInLast params (textOf ([first] ++ [second])) second.piece.length) := by
  refine stopsRight_iff (goesOn_singleton rfl) (quiet_singleton ?_)
  rintro ⟨-, w, hw, i, hat⟩
  obtain rfl := List.mem_singleton.mp hw
  have hle : i + 2 ≤ 2 := hat.add_length_le
  obtain rfl : i = 0 := by omega
  exact absurd hat.1 (by decide)

/-- The stop word is a blank, and comes with the first two bytes of a dash: it is missed. -/
theorem not_stopsRight_dash :
    let params : TextParams := ⟨[[0x20]], 0⟩
    let first : SampledToken := ⟨[0x20, 0xE2, 0x80], false, false, false, false⟩
    let second : SampledToken := ⟨[0x94], false, false, false, false⟩
    GoesOn params new [first] ∧ Quiet params [first] ∧
      ¬ StopsRight params (new.generate params [first]).1 second := by
  refine ⟨goesOn_singleton rfl, quiet_singleton fun h => h.1 (by decide), fun hstops => ?_⟩
  have hat : Occurs.At [0x20] ([0x20, 0xE2, 0x80, 0x94] : List UInt8) 0 :=
    ⟨⟨[0xE2, 0x80, 0x94], rfl⟩, Nat.zero_le _⟩
  obtain ⟨i, -, -, -, -, hfalse, -⟩ :=
    hstops.1 ⟨by decide, [0x20], List.mem_singleton_self _, 0, hat⟩
  exact absurd hfalse (by decide)

end Llama.TextSlot
