import InferFlux.Text.IncrementalUtf8
import Mathlib.Data.List.GetD
import Mathlib.Order.Defs.LinearOrder

/-!
# Decoding of token ids

Embeds `MlxTokenizer::Decode` with its byte table from
`runtime/backends/mlx/mlx_tokenizer.cpp`, and the `Detokenize` and `TokenToString` of
`HFTokenizer` and `GGUFTokenizer` (`model/hf_tokenizer.cpp`, `model/gguf_tokenizer.cpp`) that
call it. Of a loaded tokenizer only what decoding reads is kept.
-/

namespace InferFlux.Backends

open InferFlux.Text List

/-! ## The byte table -/

def cpToUtf8 (cp : Nat) : Bytes :=
  if cp < 0x80 then [UInt8.ofNat cp]
  else if cp < 0x800 then [UInt8.ofNat (0xC0 ||| cp >>> 6), UInt8.ofNat (0x80 ||| cp &&& 0x3F)]
  else [UInt8.ofNat (0xE0 ||| cp >>> 12), UInt8.ofNat (0x80 ||| cp >>> 6 &&& 0x3F),
    UInt8.ofNat (0x80 ||| cp &&& 0x3F)]

def isDirect (b : Nat) : Bool :=
  33 ≤ b && b ≤ 126 || 161 ≤ b && b ≤ 172 || 174 ≤ b && b ≤ 255

/-- The other bytes have the code points from 0x100 on, in their order. -/
def byteToUnicode (b : Nat) : Bytes :=
  if isDirect b then cpToUtf8 b
  else cpToUtf8 (0x100 + ((List.range b).filter (!isDirect ·)).length)

def unicodeToByte (utf8Char : Bytes) : Option Nat :=
  (List.range 256).reverse.find? fun b => byteToUnicode b = utf8Char

/-! ## Characters -/

def charLen (c : UInt8) : Nat :=
  if c &&& 0x80 = 0x00 then 1
  else if c &&& 0xE0 = 0xC0 then 2
  else if c &&& 0xF0 = 0xE0 then 3
  else if c &&& 0xF8 = 0xF0 then 4
  else 1

def splitLoop : Nat → Bytes → List Bytes
  | 0, _ => []
  | _, [] => []
  | fuel + 1, c :: rest =>
    (c :: rest.take (charLen c - 1)) :: splitLoop fuel (rest.drop (charLen c - 1))

def splitUtf8 (s : Bytes) : List Bytes := splitLoop s.length s

/-- U+2581, the mark of a space. -/
def kMetaMark : Bytes := [0xE2, 0x96, 0x81]

inductive PreTokenizerType where
  | metaspace
  | byteLevel
  | unknown
  deriving DecidableEq, Repr

def PreTokenizerType.spellChar : PreTokenizerType → Bytes → Bytes
  | .metaspace, ch => if ch = kMetaMark then bytes " " else ch
  | .byteLevel, ch =>
    match unicodeToByte ch with
    | some b => [UInt8.ofNat b]
    | none => ch
  | .unknown, ch => ch

def PreTokenizerType.spell (preTok : PreTokenizerType) (combined : Bytes) : Bytes :=
  match preTok with
  | .unknown => combined
  | preTok => (splitUtf8 combined).flatMap preTok.spellChar

def LeadsSpace (text : Bytes) : Prop := text.head? = some 32

instance (text : Bytes) : Decidable (LeadsSpace text) :=
  inferInstanceAs (Decidable (text.head? = some 32))

def stripSpace (text : Bytes) : Bytes :=
  if LeadsSpace text then text.tail else text

/-! ## Tokenizers -/

structure MlxTokenizer where
  loaded : Bool := true
  preTok : PreTokenizerType
  idToToken : List Bytes
  specialIds : List Int := []

namespace MlxTokenizer

variable (t : MlxTokenizer)

def isSpecial (id : Int) : Bool := t.specialIds.contains id

def token (id : Int) : Bytes :=
  if id < 0 || id ≥ t.idToToken.length then [] else t.idToToken.getD id.toNat []

def decode (ids : List Int) (skipSpecial : Bool) : Bytes :=
  if !t.loaded then []
  else
    let combined := (ids.filter fun id => !(skipSpecial && t.isSpecial id)).flatMap t.token
    match t.preTok with
    | .metaspace => stripSpace (t.preTok.spell combined)
    | .byteLevel => t.preTok.spell combined
    | .unknown => combined

end MlxTokenizer

/-- The tokenizers of the native backend, with their inner one. -/
inductive Tokenizer where
  | hf (inner : MlxTokenizer)
  | gguf (inner : MlxTokenizer)

namespace Tokenizer

def inner : Tokenizer → MlxTokenizer
  | .hf inner => inner
  | .gguf inner => inner

def detokenize : Tokenizer → List Int → Bytes
  | .hf inner, tokens => inner.decode tokens true
  | .gguf inner, tokens => inner.decode tokens true

def tokenToString : Tokenizer → Int → Bytes
  | .hf inner, tokenId => inner.decode [tokenId] false
  | .gguf inner, tokenId => inner.decode [tokenId] false

end Tokenizer

/-! ## Spelling -/

theorem charLen_eq_sequenceLength {lead : UInt8} (h : sequenceLength lead ≠ 0) :
    charLen lead = sequenceLength lead := by
  obtain ⟨b⟩ := lead
  revert h
  revert b
  decide

theorem splitLoop_utf8 (chars : List Char) (fuel : Nat)
    (hfuel : (chars.flatMap String.utf8EncodeChar).length ≤ fuel) :
    splitLoop fuel (chars.flatMap String.utf8EncodeChar) = chars.map String.utf8EncodeChar := by
  induction chars generalizing fuel with
  | nil => cases fuel <;> rfl
  | cons c chars ih =>
    obtain ⟨lead, rest, henc, hlen, _⟩ := utf8EncodeChar_accepted c
    have hchar : charLen lead - 1 = rest.length := by
      rw [charLen_eq_sequenceLength (by omega), hlen]
      rfl
    simp only [flatMap_cons, henc, length_append, length_cons] at hfuel
    obtain ⟨fuel, rfl⟩ : ∃ n, fuel = n + 1 := ⟨fuel - 1, by omega⟩
    simp only [flatMap_cons, henc, cons_append, splitLoop, hchar, take_left, drop_left, map_cons]
    rw [ih fuel (by omega)]

theorem splitUtf8_utf8 (chars : List Char) :
    splitUtf8 (chars.flatMap String.utf8EncodeChar) = chars.map String.utf8EncodeChar :=
  splitLoop_utf8 chars _ (Nat.le_refl _)

variable (preTok : PreTokenizerType)

theorem spell_utf8 (chars : List Char) :
    preTok.spell (chars.flatMap String.utf8EncodeChar) =
      chars.flatMap fun c => preTok.spellChar (String.utf8EncodeChar c) := by
  cases preTok <;> simp [PreTokenizerType.spell, splitUtf8_utf8, PreTokenizerType.spellChar,
    flatMap_map]

variable {a : Bytes} {b : Bytes}

theorem validUtf8_append (ha : ValidUtf8 a) (hb : ValidUtf8 b) : ValidUtf8 (a ++ b) := by
  obtain ⟨cs, rfl⟩ := ha
  obtain ⟨ds, rfl⟩ := hb
  exact ⟨cs ++ ds, flatMap_append.symm⟩

theorem spell_append (ha : ValidUtf8 a) (hb : ValidUtf8 b) :
    preTok.spell (a ++ b) = preTok.spell a ++ preTok.spell b := by
  obtain ⟨cs, rfl⟩ := ha
  obtain ⟨ds, rfl⟩ := hb
  rw [← flatMap_append, spell_utf8, spell_utf8, spell_utf8, flatMap_append]

theorem spell_flatten {tokens : List Bytes} (h : ∀ token ∈ tokens, ValidUtf8 token) :
    ValidUtf8 tokens.flatten ∧ preTok.spell tokens.flatten = (tokens.map preTok.spell).flatten := by
  induction tokens with
  | nil => exact ⟨⟨[], rfl⟩, spell_utf8 preTok []⟩
  | cons token tokens ih =>
    obtain ⟨hvalid, hspell⟩ := ih fun t ht => h t (mem_cons_of_mem _ ht)
    have htoken := h token mem_cons_self
    refine ⟨validUtf8_append htoken hvalid, ?_⟩
    rw [flatten_cons, spell_append preTok htoken hvalid, hspell, map_cons, flatten_cons]

/-! ## Stripping every piece -/

theorem stripSpace_of_not {text : Bytes} (h : ¬ LeadsSpace text) : stripSpace text = text :=
  if_neg h

theorem length_stripSpace {text : Bytes} (h : LeadsSpace text) :
    (stripSpace text).length + 1 = text.length := by
  cases text with
  | nil => cases h
  | cons c rest =>
    rw [stripSpace, if_pos h]
    rfl

theorem stripSpace_append (b : Bytes) (h : a ≠ []) : stripSpace (a ++ b) = stripSpace a ++ b := by
  cases a with
  | nil => exact absurd rfl h
  | cons c rest =>
    by_cases hc : c = 32 <;> simp [stripSpace, LeadsSpace, hc]

variable (pieces : List Bytes)

theorem length_stripped_le : (pieces.map stripSpace).flatten.length ≤ pieces.flatten.length := by
  induction pieces with
  | nil => exact Nat.le_refl _
  | cons piece pieces ih =>
    simp only [map_cons, flatten_cons, length_append]
    by_cases h : LeadsSpace piece
    · have := length_stripSpace h
      omega
    · rw [stripSpace_of_not h]
      omega

/-- Nothing is lost exactly if no piece begins with a space. -/
theorem stripped_eq_iff :
    (pieces.map stripSpace).flatten = pieces.flatten ↔ ∀ piece ∈ pieces, ¬ LeadsSpace piece := by
  induction pieces with
  | nil => simp
  | cons piece pieces ih =>
    simp only [map_cons, flatten_cons, forall_mem_cons, ← ih]
    by_cases h : LeadsSpace piece
    · simp only [h, not_true_eq_false, false_and, iff_false]
      intro heq
      have hlen := congrArg length heq
      have hpiece := length_stripSpace h
      have hrest := length_stripped_le pieces
      simp only [length_append] at hlen
      omega
    · rw [stripSpace_of_not h, append_cancel_left_eq]
      simp [h]

/-- A piece that begins with a space comes first, up to empty pieces. -/
def SpacesLead (pieces : List Bytes) : Prop :=
  ∀ before piece after, pieces = before ++ piece :: after → LeadsSpace piece →
    ∀ other ∈ before, other = []

theorem spacesLead_nil_cons : SpacesLead ([] :: pieces) ↔ SpacesLead pieces := by
  constructor
  · rintro h before piece after rfl hleads other hother
    exact h ([] :: before) piece after rfl hleads other (mem_cons_of_mem _ hother)
  · intro h before piece after hsplit hleads other hother
    cases before with
    | nil => cases hother
    | cons first before =>
      obtain ⟨rfl, hpieces⟩ := cons.inj hsplit
      obtain rfl | hother := mem_cons.mp hother
      · rfl
      · exact h before piece after hpieces hleads other hother

theorem spacesLead_cons {first : Bytes} (hfirst : first ≠ []) (pieces : List Bytes) :
    SpacesLead (first :: pieces) ↔ ∀ piece ∈ pieces, ¬ LeadsSpace piece := by
  constructor
  · intro h piece hmem hleads
    obtain ⟨before, after, rfl⟩ := append_of_mem hmem
    exact hfirst (h (first :: before) piece after rfl hleads first mem_cons_self)
  · intro h before piece after hsplit hleads other hother
    cases before with
    | nil => cases hother
    | cons first' before =>
      obtain ⟨_, rfl⟩ := cons.inj hsplit
      exact absurd hleads (h piece (by simp))

/-- Stripping every piece strips the whole, and nothing else, exactly if only the first piece
begins with a space. -/
theorem stripped_eq_stripSpace_iff :
    ((pieces.map stripSpace).flatten = stripSpace pieces.flatten ∨
      (pieces.map stripSpace).flatten = bytes " " ++ stripSpace pieces.flatten) ↔
      SpacesLead pieces := by
  induction pieces with
  | nil => simp [SpacesLead, stripSpace]
  | cons first pieces ih =>
    by_cases hfirst : first = []
    · subst hfirst
      rw [spacesLead_nil_cons, ← ih]
      rfl
    · rw [spacesLead_cons hfirst, ← stripped_eq_iff, map_cons, flatten_cons,
        flatten_cons, stripSpace_append _ hfirst]
      constructor
      · rintro (heq | heq)
        · exact append_cancel_left heq
        · -- the pieces have no byte more than the text
          have hlen := congrArg length heq
          have hspace : (bytes " ").length = 1 := by decide
          have hle := length_stripped_le pieces
          simp only [length_append] at hlen
          omega
      · intro heq
        exact .inl (by rw [heq])

/-! ## Pieces and text -/

def StartsSpace (token : Bytes) : Prop := kMetaMark <+: token ∨ bytes " " <+: token

instance (token : Bytes) : Decidable (StartsSpace token) := inferInstanceAs (Decidable (_ ∨ _))

theorem leadsSpace_append (b : Bytes) (h : a ≠ []) : LeadsSpace (a ++ b) ↔ LeadsSpace a := by
  rw [LeadsSpace, LeadsSpace, head?_append_of_ne_nil a h]

theorem spellChar_ne_nil (c : Char) :
    PreTokenizerType.metaspace.spellChar (String.utf8EncodeChar c) ≠ [] := by
  obtain ⟨lead, rest, henc, _⟩ := utf8EncodeChar_accepted c
  rw [PreTokenizerType.spellChar, henc]
  split_ifs
  · decide
  · exact cons_ne_nil lead rest

theorem spell_eq_nil_iff {token : Bytes} (h : ValidUtf8 token) :
    PreTokenizerType.metaspace.spell token = [] ↔ token = [] := by
  obtain ⟨chars, rfl⟩ := h
  rw [spell_utf8]
  cases chars with
  | nil => simp
  | cons c chars =>
    obtain ⟨lead, rest, henc, _⟩ := utf8EncodeChar_accepted c
    have hchar := spellChar_ne_nil c
    rw [henc] at hchar
    simp [hchar, henc]

theorem leadsSpace_spellChar_iff (c : Char) (more : Bytes) :
    LeadsSpace (PreTokenizerType.metaspace.spellChar (String.utf8EncodeChar c)) ↔
      StartsSpace (String.utf8EncodeChar c ++ more) := by
  obtain ⟨lead, rest, henc, hlen, _⟩ := utf8EncodeChar_accepted c
  have hspace : bytes " " = [32] := by decide
  rw [PreTokenizerType.spellChar, henc, StartsSpace, hspace]
  split_ifs with hmark
  · rw [hmark]
    exact iff_of_true rfl (.inl (prefix_append ..))
  · have hnot : ¬ kMetaMark <+: lead :: (rest ++ more) := by
      intro hpre
      obtain ⟨rfl, hmore⟩ := cons_prefix_cons.mp hpre
      have hrest : rest.length = 2 := by
        have : sequenceLength 0xE2 = 3 := by decide
        omega
      have htail : [(0x96 : UInt8), 0x81] = rest :=
        (prefix_of_prefix_length_le hmore (prefix_append ..) (by simp [hrest])).eq_of_length
          (by simp [hrest])
      exact hmark (congrArg _ htail.symm)
    simp only [cons_append, hnot, false_or, LeadsSpace, head?_cons, Option.some.injEq,
      cons_prefix_cons, nil_prefix, and_true]
    exact eq_comm

theorem leadsSpace_spell_iff {token : Bytes} (h : ValidUtf8 token) :
    LeadsSpace (PreTokenizerType.metaspace.spell token) ↔ StartsSpace token := by
  obtain ⟨chars, rfl⟩ := h
  rw [spell_utf8]
  cases chars with
  | nil => simp [LeadsSpace, StartsSpace, kMetaMark, show bytes " " = [32] by decide]
  | cons c chars =>
    rw [flatMap_cons, flatMap_cons, leadsSpace_append _ (spellChar_ne_nil c)]
    exact leadsSpace_spellChar_iff c _

variable {t : MlxTokenizer}

theorem validUtf8_token (h : ∀ token ∈ t.idToToken, ValidUtf8 token) (id : Int) :
    ValidUtf8 (t.token id) := by
  rw [MlxTokenizer.token]
  split_ifs with hrange
  · exact ⟨[], rfl⟩
  · simp only [Bool.or_eq_true, decide_eq_true_eq, not_or] at hrange
    apply h
    rw [getD_eq_getElem _ _ (by omega)]
    exact getElem_mem _

theorem spacesLead_map_iff {f : Int → Bytes} (ids : List Int) :
    SpacesLead (ids.map f) ↔ ∀ before id after, ids = before ++ id :: after → LeadsSpace (f id) →
      ∀ other ∈ before, f other = [] := by
  constructor
  · rintro h before id after rfl hleads other hother
    refine h (before.map f) (f id) (after.map f) (by simp) hleads (f other) ?_
    exact mem_map_of_mem hother
  · intro h before piece after hsplit hleads other hother
    obtain ⟨before', rest, rfl, rfl, hrest⟩ := map_eq_append_iff.mp hsplit
    obtain ⟨id, after', rfl, rfl, rfl⟩ := map_eq_cons_iff.mp hrest
    obtain ⟨other', hmem, rfl⟩ := mem_map.mp hother
    exact h before' id after' rfl hleads other' hmem

theorem decode_skipSpecial {ids : List Int} (h : ∀ id ∈ ids, ¬ t.isSpecial id) :
    t.decode ids true = t.decode ids false := by
  have hfilter : (ids.filter fun id => !(true && t.isSpecial id)) =
      ids.filter fun id => !(false && t.isSpecial id) := by
    apply filter_congr
    intro id hid
    simp [h id hid]
  simp only [MlxTokenizer.decode, hfilter]

/-- Decoding spells the tokens one after the other and then strips the text. -/
theorem decode_eq (ids : List Int) (hloaded : t.loaded)
    (hutf8 : ∀ token ∈ t.idToToken, ValidUtf8 token) :
    t.decode ids false =
      let text := (ids.map fun id => t.preTok.spell (t.token id)).flatten
      if t.preTok = .metaspace then stripSpace text else text := by
  have hfilter : (ids.filter fun id => !(false && t.isSpecial id)) = ids := by simp
  have hspell : t.preTok.spell (ids.flatMap t.token) =
      (ids.map fun id => t.preTok.spell (t.token id)).flatten := by
    rw [flatMap_def, (spell_flatten t.preTok ?_).2, map_map]
    · rfl
    · intro token htoken
      obtain ⟨id, _, rfl⟩ := mem_map.mp htoken
      exact validUtf8_token hutf8 id
  rw [← hspell]
  simp only [MlxTokenizer.decode, hloaded, hfilter]
  cases t.preTok <;> rfl

/-- The pieces of the single tokens make the text of the list, but for a leading space, exactly
if the pre-tokenizer is another one or only the first token begins with a space. -/
theorem pieces_eq_text_iff (tokenizer : Tokenizer) (ids : List Int)
    (hloaded : tokenizer.inner.loaded) (hutf8 : ∀ token ∈ tokenizer.inner.idToToken, ValidUtf8 token)
    (hspecial : ∀ id ∈ ids, ¬ tokenizer.inner.isSpecial id) :
    (ids.flatMap tokenizer.tokenToString = tokenizer.detokenize ids ∨
      ids.flatMap tokenizer.tokenToString = bytes " " ++ tokenizer.detokenize ids) ↔
      (tokenizer.inner.preTok = .metaspace →
        ∀ before id after, ids = before ++ id :: after → StartsSpace (tokenizer.inner.token id) →
          ∀ other ∈ before, tokenizer.inner.token other = []) := by
  have htext : tokenizer.detokenize ids = tokenizer.inner.decode ids false := by
    rw [← decode_skipSpecial hspecial]
    cases tokenizer <;> rfl
  have hpiece : tokenizer.tokenToString = fun id => tokenizer.inner.decode [id] false := by
    funext id
    cases tokenizer <;> rfl
  have hvalid := validUtf8_token hutf8
  rw [htext, hpiece]
  generalize tokenizer.inner = t at *
  simp only [decode_eq _ hloaded hutf8, map_cons, map_nil, flatten_singleton]
  by_cases hmeta : t.preTok = .metaspace
  · have hpieces : ids.flatMap (fun id => stripSpace (t.preTok.spell (t.token id))) =
        ((ids.map fun id => t.preTok.spell (t.token id)).map stripSpace).flatten := by
      rw [flatMap_def, map_map]
      rfl
    simp only [hmeta, if_true, forall_const] at hpieces ⊢
    rw [hpieces, stripped_eq_stripSpace_iff, spacesLead_map_iff]
    simp [leadsSpace_spell_iff (hvalid _), spell_eq_nil_iff (hvalid _)]
  · simp only [hmeta, if_false, false_imp_iff, iff_true]
    exact .inl flatMap_def

def threeTokens : Tokenizer :=
  .hf
    { preTok := .metaspace
      idToToken := [kMetaMark ++ bytes "hello", kMetaMark ++ bytes "world", bytes "ing"] }

theorem pieces_eq_text_helloing :
    [0, 2].flatMap threeTokens.tokenToString = threeTokens.detokenize [0, 2] ∨
      [0, 2].flatMap threeTokens.tokenToString = bytes " " ++ threeTokens.detokenize [0, 2] := by
  refine (pieces_eq_text_iff threeTokens [0, 2] rfl ?_ (by decide)).mpr ?_
  · intro token htoken
    simp only [threeTokens, Tokenizer.inner, mem_cons, not_mem_nil, or_false] at htoken
    obtain rfl | rfl | rfl := htoken
    · exact ⟨"▁hello".toList, by decide⟩
    · exact ⟨"▁world".toList, by decide⟩
    · exact ⟨"ing".toList, by decide⟩
  · rintro - before id after hsplit hstarts other hother
    obtain ⟨rfl, hrest⟩ | ⟨before, rfl, hrest⟩ := cons_eq_append_iff.mp hsplit
    · cases hother
    · have hid : id ∈ [(2 : Int)] := hrest ▸ by simp
      obtain rfl := mem_singleton.mp hid
      exact absurd hstarts (by decide)

/-- The space between two words is lost. -/
theorem pieces_lose_space :
    [0, 1].flatMap threeTokens.tokenToString = bytes "helloworld" ∧
      threeTokens.detokenize [0, 1] = bytes "hello world" := by
  decide

end InferFlux.Backends
