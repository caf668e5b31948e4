import InferFlux.Policy.PolicyFormat

/-!
# The contents of the file of the policy store

What `Save` writes can always be read, with or without encryption: `Load` gets the plain text
that was written. Whether that text says what the store said is another question.
-/

namespace InferFlux.Policy

open InferFlux.Text InferFlux.Http InferFlux.Auth Delimited List

theorem hexValue_hexChar (c : UInt8) :
    hexValue (hexChar (c / 16)) = some (c / 16) ∧ hexValue (hexChar (c % 16)) = some (c % 16) := by
  obtain ⟨b⟩ := c
  revert b
  decide

theorem hexChar_digits (c : UInt8) : c / 16 * 16 + c % 16 = c := by
  obtain ⟨b⟩ := c
  revert b
  decide

theorem isHexDigit_hexChar (c : UInt8) :
    isHexDigit (hexChar (c / 16)) = true ∧ isHexDigit (hexChar (c % 16)) = true := by
  obtain ⟨b⟩ := c
  revert b
  decide

theorem hexDecode_hexEncode (data : Bytes) : hexDecode (hexEncode data) = data := by
  induction data with
  | nil => rfl
  | cons c data ih =>
    obtain ⟨hhigh, hlow⟩ := hexValue_hexChar c
    simp only [hexEncode, flatMap_cons, cons_append, nil_append] at ih ⊢
    simp only [hexDecode, hhigh, hlow, ih, hexChar_digits]
    cases data <;> simp

variable {data : Bytes} {c : UInt8}

theorem isHexDigit_of_mem_hexEncode (h : c ∈ hexEncode data) : isHexDigit c = true := by
  simp only [hexEncode, mem_flatMap] at h
  obtain ⟨d, -, hc⟩ := h
  grind [isHexDigit_hexChar]

theorem not_blank_of_isHexDigit (h : isHexDigit c = true) : isTrailingBlank c = false ∧ c ≠ 10 := by
  revert h
  obtain ⟨b⟩ := c
  revert b
  decide

variable {text : Bytes}

theorem stripped_of_isHexDigit (h : ∀ c ∈ text, isHexDigit c = true) :
    Stripped isTrailingBlank text :=
  stripped_of_forall fun c hc => (not_blank_of_isHexDigit (h c hc)).1

theorem newline_not_mem_of_isHexDigit (h : ∀ c ∈ text, isHexDigit c = true) : 10 ∉ text :=
  fun hc => (not_blank_of_isHexDigit (h 10 hc)).2 rfl

theorem trim_eq_self (h : Stripped isTrailingBlank text) : trim text = text :=
  strip_eq_self h

theorem readHexLine_hexEncode {n : Bytes} (hname : 61 ∉ n)
    (hstripped : Stripped isTrailingBlank n) (hdata : data ≠ []) :
    readHexLine n (n ++ 61 :: hexEncode data) = some data := by
  have hvalue : trim (hexEncode data) = hexEncode data :=
    trim_eq_self (stripped_of_isHexDigit fun _ => isHexDigit_of_mem_hexEncode)
  simp [readHexLine, findIdx?_append_sep hname, trim_eq_self hstripped, hvalue,
    hexDecode_hexEncode, hdata]

theorem getLines_encrypted (nonce tag data : Bytes) :
    getLines 10 (bytes "ENC\n" ++ bytes "nonce=" ++ hexEncode nonce ++ bytes "\n" ++
        bytes "tag=" ++ hexEncode tag ++ bytes "\n" ++
        bytes "data=" ++ hexEncode data ++ bytes "\n") =
      [bytes "ENC", bytes "nonce" ++ 61 :: hexEncode nonce, bytes "tag" ++ 61 :: hexEncode tag,
        bytes "data" ++ 61 :: hexEncode data] := by
  have hline : ∀ name value : Bytes, 10 ∉ name → 10 ∉ name ++ 61 :: hexEncode value := by
    intro name value hname
    simp [hname, newline_not_mem_of_isHexDigit fun _ => isHexDigit_of_mem_hexEncode]
  have htext : bytes "ENC\n" ++ bytes "nonce=" ++ hexEncode nonce ++ bytes "\n" ++
        bytes "tag=" ++ hexEncode tag ++ bytes "\n" ++
        bytes "data=" ++ hexEncode data ++ bytes "\n" =
      bytes "ENC" ++ 10 :: ((bytes "nonce" ++ 61 :: hexEncode nonce) ++
        10 :: ((bytes "tag" ++ 61 :: hexEncode tag) ++
        10 :: ((bytes "data" ++ 61 :: hexEncode data) ++ 10 :: []))) := by
    have hheader : bytes "ENC\n" = bytes "ENC" ++ [10] := by decide
    have hnonce : bytes "nonce=" = bytes "nonce" ++ [61] := by decide
    have htag : bytes "tag=" = bytes "tag" ++ [61] := by decide
    have hdata : bytes "data=" = bytes "data" ++ [61] := by decide
    have hnewline : bytes "\n" = [10] := by decide
    simp [hheader, hnonce, htag, hdata, hnewline]
  rw [htext, getLines, pieces_append_sep (by decide), pieces_append_sep (hline _ _ (by decide)),
    pieces_append_sep (hline _ _ (by decide)), pieces_append_sep (hline _ _ (by decide))]
  rfl

variable {nonce : Option Nonce}

theorem decrypt_of_encrypt {cipher : Cipher} {contents : Bytes} (htext : text ≠ [])
    (h : encrypt cipher nonce text = some contents) :
    decrypt cipher contents = some text ∧ contents.take 3 = bytes "ENC" := by
  cases nonce with
  | none => cases h
  | some nonce =>
    simp only [encrypt] at h
    split at h
    · cases h
    · cases h
      have hnonce : nonce.1 ≠ [] := ne_nil_of_length_pos (by simp [nonce.2])
      have htag : (cipher.encrypt nonce text).2 ≠ [] :=
        ne_nil_of_length_pos (by simp [cipher.length_tag])
      have hdata : (cipher.encrypt nonce text).1 ≠ [] := by
        rw [← length_pos_iff, cipher.length_ciphertext]
        exact length_pos_iff.mpr htext
      refine ⟨?_, rfl⟩
      have hheader : trim (bytes "ENC") = bytes "ENC" := trim_eq_self (by decide)
      have hnonceLine := readHexLine_hexEncode (n := bytes "nonce") (by decide) (by decide) hnonce
      have htagLine := readHexLine_hexEncode (n := bytes "tag") (by decide) (by decide) htag
      have hdataLine := readHexLine_hexEncode (n := bytes "data") (by decide) (by decide) hdata
      simp only [decrypt, getLines_encrypted]
      simp [hheader, hnonceLine, htagLine, hdataLine, cipher.decrypt_encrypt]

theorem plaintext_eq_cons (store : PolicyStore) : ∃ rest, store.plaintext = 91 :: rest :=
  ⟨_, by simp [PolicyStore.plaintext, bytes]; rfl⟩

/-- The contents of a saved file are read as the plain text that was written. -/
theorem parseContents_of_serialize {cipher : Option Cipher} {store : PolicyStore}
    {contents : Bytes} (h : serialize cipher nonce store = some contents) :
    parseContents cipher contents = some (parsePlaintext store.plaintext) := by
  obtain ⟨rest, hplain⟩ := plaintext_eq_cons store
  cases cipher with
  | none =>
    cases h
    have hplainFile : store.plaintext.take 3 ≠ bytes "ENC" := by
      have hletters : bytes "ENC" = [69, 78, 67] := by decide
      simp [hplain, hletters]
    simp [parseContents, hplainFile]
  | some cipher =>
    obtain ⟨hdecrypt, hhead⟩ := decrypt_of_encrypt (by simp [hplain]) h
    simp [parseContents, hhead, hdecrypt]

end InferFlux.Policy
