import InferFlux.Http.ToolCalls
import Mathlib.Algebra.Order.BigOperators.Group.List
import Mathlib.Algebra.Order.Group.Nat

/-!
# Envelopes after prose

An envelope is extracted after any prose in which every bracket is closed: the pass over the
text reads such prose without looking at what follows. A bracket that the prose leaves open
takes the envelope with it, or the rest of the text. So the calls after a text are found
exactly if the text leaves no bracket open (`calls_after_prose_iff`).
-/

namespace InferFlux.Http

open InferFlux.Text Occurrence Exhaust CallScan List

/-! ## The scan for the closing bracket -/

section Scan

variable {opening closing : UInt8} {s : Nesting} {a : Bytes} {n : Nat}

theorem scanLoop_append_of_some (h : scanLoop opening closing s a = some n) (b : Bytes) :
    scanLoop opening closing s (a ++ b) = some n := by
  induction a generalizing s n with
  | nil => cases h
  | cons c a ih =>
    simp only [cons_append, scanLoop] at h ⊢
    split_ifs at h ⊢ with hdone hbelow
    · exact h
    · obtain ⟨m, hm, rfl⟩ := Option.map_eq_some_iff.mp h
      rw [ih hm, Option.map_some]

theorem scanLoop_bounds (h : scanLoop opening closing s a = some n) : 0 < n ∧ n ≤ a.length := by
  induction a generalizing s n with
  | nil => cases h
  | cons c a ih =>
    simp only [scanLoop] at h
    split_ifs at h with hdone hbelow
    · obtain rfl := Option.some.inj h
      simp
    · obtain ⟨m, hm, rfl⟩ := Option.map_eq_some_iff.mp h
      have := ih hm
      simp only [length_cons]
      omega

/-- A character leaves the bracket open or is the one that closes it. -/
theorem read_depth (opening closing : UInt8) (hdepth : 1 ≤ s.depth) (c : UInt8) :
    1 ≤ (s.read opening closing c).depth ∨
      ((!s.inStr && c ≠ kQuote && c ≠ opening && c = closing) = true ∧
        (s.read opening closing c).depth = 0) := by
  simp only [Nesting.read]
  split_ifs with hstr hesc hback hquote hquote' hopen hclose
  all_goals try exact .inl (by simpa using hdepth)
  · exact .inl (by simp only; omega)
  · by_cases hone : s.depth = 1
    · subst hclose
      exact .inr (by simp [hstr, hquote', hopen, hone])
    · exact .inl (by simp only; omega)

/-- An open bracket stays open over a text that does not close it. -/
theorem scanLoop_append_of_none (hdepth : 1 ≤ s.depth) (h : scanLoop opening closing s a = none) :
    1 ≤ (a.foldl (Nesting.read opening closing) s).depth ∧
      ∀ b, scanLoop opening closing s (a ++ b) =
        (scanLoop opening closing (a.foldl (Nesting.read opening closing) s) b).map (· + a.length) := by
  induction a generalizing s with
  | nil => simp [hdepth]
  | cons c a ih =>
    have hread := read_depth opening closing hdepth c
    simp only [scanLoop] at h
    split_ifs at h with hdone hbelow
    · grind
    · have hopen : 1 ≤ (s.read opening closing c).depth := by grind
      obtain ⟨hlast, happend⟩ := ih hopen (Option.map_eq_none_iff.mp h)
      refine ⟨hlast, fun b => ?_⟩
      simp only [cons_append, scanLoop, hdone, hbelow, happend b]
      simp [Option.map_map, Function.comp_def, Nat.add_assoc]

theorem scanLoop_of_not_mem (h : closing ∉ a) : scanLoop opening closing s a = none := by
  induction a generalizing s with
  | nil => rfl
  | cons c a ih =>
    have hc : c ≠ closing := fun heq => h (heq ▸ mem_cons_self)
    simp [scanLoop, hc, ih fun hmem => h (mem_cons_of_mem _ hmem)]

end Scan

def isBracket (c : UInt8) : Bool := c = kOpenBrace || c = kOpenBracket

variable {c : UInt8}

theorem scanBalancedObject_cons (h : isBracket c) (rest : Bytes) :
    scanBalancedObject (c :: rest) =
      (scanLoop c (closingOf c) { depth := 1 } rest).map (· + 1) := by
  have hquote : c ≠ kQuote := by
    rintro rfl
    cases h
  have hread : Nesting.read c (closingOf c) {} c = { depth := 1 } := by
    simp [Nesting.read, hquote]
  simp [scanBalancedObject, scanLoop, hread]

theorem scanBalancedObject_bounds {text : Bytes} {n : Nat} (h : scanBalancedObject text = some n) :
    0 < n ∧ n ≤ text.length := by
  cases text with
  | nil => cases h
  | cons c rest => exact scanLoop_bounds h

theorem scanBalancedObject_append {text : Bytes} {n : Nat} (h : scanBalancedObject text = some n)
    (more : Bytes) : scanBalancedObject (text ++ more) = some n := by
  cases text with
  | nil => cases h
  | cons c rest => exact scanLoop_append_of_some h more

/-! ## Prose -/

def proseStep : Bytes → Option Bytes
  | [] => none
  | c :: rest =>
    if isBracket c then (scanBalancedObject (c :: rest)).map fun n => (c :: rest).drop n
    else some rest

def openEnd (prose : Bytes) : Bytes := exhaust proseStep List.length prose

def Closed (prose : Bytes) : Prop := openEnd prose = []

instance (prose : Bytes) : Decidable (Closed prose) :=
  inferInstanceAs (Decidable (openEnd prose = []))

theorem proseStep_shrinks : Shrinks proseStep List.length := by
  intro text rest h
  cases text with
  | nil => cases h
  | cons c tail =>
    simp only [proseStep] at h
    split_ifs at h with hbracket
    · obtain ⟨n, hn, rfl⟩ := Option.map_eq_some_iff.mp h
      have := scanBalancedObject_bounds hn
      rw [length_drop]
      omega
    · obtain rfl := Option.some.inj h
      simp

variable {prose : Bytes}

/-- What is left begins with a bracket that is not closed. -/
theorem openEnd_unclosed (h : ¬ Closed prose) :
    ∃ c rest, openEnd prose = c :: rest ∧ isBracket c ∧ scanBalancedObject (c :: rest) = none := by
  have hlast := step_exhaust proseStep_shrinks prose
  rw [← openEnd] at hlast
  cases hrest : openEnd prose with
  | nil => exact absurd hrest h
  | cons c rest =>
    rw [hrest, proseStep] at hlast
    split_ifs at hlast with hbracket
    exact ⟨c, rest, rfl, hbracket, Option.map_eq_none_iff.mp hlast⟩

/-- No marker begins in the prose when the text `more` follows it. -/
def Unmarked (prose more : Bytes) : Prop :=
  ∀ i < prose.length, ¬ kToolCallOpen <+: (prose ++ more).drop i ∧
    ¬ kMistral <+: (prose ++ more).drop i

theorem Unmarked.drop {more : Bytes} (h : Unmarked prose more) {n : Nat} (hn : n ≤ prose.length) :
    Unmarked (prose.drop n) more := by
  intro i hi
  rw [length_drop] at hi
  have := h (n + i) (by omega)
  rwa [← drop_drop, drop_append_of_le_length hn] at this

variable {body : Bytes}

section Pass

variable (lib : JsonLibrary)

theorem consume_append (calls : List ToolCallResult) (residual body : Bytes) {text : Bytes}
    {n : Nat} (hn : n ≤ text.length) :
    ∃ calls' residual', calls <+: calls' ∧ ∀ more : Bytes,
      consume lib ⟨text ++ more, calls, residual⟩ body false n =
        ⟨text.drop n ++ more, calls', residual'⟩ := by
  cases h : parseCalls lib calls.length body false with
  | some new =>
    refine ⟨calls ++ new, residual, prefix_append .., fun more => ?_⟩
    simp [consume, h, drop_append_of_le_length hn]
  | none =>
    refine ⟨calls, residual ++ text.take n, prefix_rfl, fun more => ?_⟩
    simp [consume, h, drop_append_of_le_length hn, take_append_of_le_length hn]

/-- The pass reads prose without looking at what follows it. -/
theorem step_prose {prose rest : Bytes} (h : proseStep prose = some rest)
    (calls : List ToolCallResult) (residual : Bytes) :
    ∃ n calls' residual', n ≤ prose.length ∧ rest = prose.drop n ∧ calls <+: calls' ∧
      ∀ more, Unmarked prose more → step lib ⟨prose ++ more, calls, residual⟩ =
        some ⟨rest ++ more, calls', residual'⟩ := by
  cases prose with
  | nil => cases h
  | cons c tail =>
    simp only [proseStep] at h
    split_ifs at h with hbracket
    · obtain ⟨n, hn, rfl⟩ := Option.map_eq_some_iff.mp h
      have hle := (scanBalancedObject_bounds hn).2
      obtain ⟨calls', residual', hcalls, hconsume⟩ :=
        consume_append lib calls residual ((c :: tail).take n) hle
      refine ⟨n, calls', residual', hle, rfl, hcalls, fun more hmore => ?_⟩
      obtain ⟨hopen, hmistral⟩ := hmore 0 (by simp)
      have hscan := scanBalancedObject_append hn more
      rw [isBracket] at hbracket
      rw [← hconsume more]
      simp only [drop_zero, cons_append] at hopen hmistral hscan ⊢
      simp only [step, hopen, hmistral, if_false, hbracket, if_true, hscan]
      rw [← cons_append, take_append_of_le_length hle]
    · obtain rfl := Option.some.inj h
      refine ⟨1, calls, residual ++ [c], by simp, rfl, prefix_rfl, fun more hmore => ?_⟩
      obtain ⟨hopen, hmistral⟩ := hmore 0 (by simp)
      rw [isBracket] at hbracket
      simp only [drop_zero, cons_append] at hopen hmistral ⊢
      simp [step, hopen, hmistral, hbracket, skip]

theorem consume_rest (s : CallScan) (body : Bytes) (explicitCall : Bool) (consumed : Nat) :
    (s.consume lib body explicitCall consumed).rest = s.rest.drop consumed := by
  rw [consume]
  split <;> rfl

theorem mistralList_consumed {text : Bytes} {consumed : Nat} (hmistral : kMistral <+: text)
    (h : mistralList text = some (body, consumed)) : 0 < consumed := by
  have hlen : kMistral.length = 12 := by decide
  have hle := hmistral.length_le
  simp only [mistralList] at h
  split_ifs at h with hbracket
  obtain ⟨n, hn, heq⟩ := Option.map_eq_some_iff.mp h
  obtain ⟨_, rfl⟩ := Prod.mk.inj heq
  have hbody := (dropWhile_suffix isWs (l := text.drop kMistral.length)).length_le
  have hclosing := (dropWhile_suffix isWs
    (l := ((text.drop kMistral.length).dropWhile isWs).drop n)).length_le
  rw [length_drop] at hbody
  split_ifs <;> simp only [length_drop] at hclosing ⊢ <;> omega

theorem step_shrinks : Shrinks (step lib) (fun s => s.rest.length) := by
  rintro ⟨text, calls, residual⟩ t h
  cases text with
  | nil => cases h
  | cons c tail =>
    have hdrop {n : Nat} (hn : 0 < n) : ((c :: tail).drop n).length < (c :: tail).length := by
      rw [length_drop, length_cons]
      omega
    simp only [step] at h
    split_ifs at h with hopen hmistral hbracket
    · split at h
      · obtain rfl := Option.some.inj h
        simp [stop]
      · obtain rfl := Option.some.inj h
        simp only [consume_rest]
        exact hdrop (by have : kToolCallOpen.length = 11 := by decide
                        omega)
    · split at h
      · rename_i hlist
        obtain rfl := Option.some.inj h
        simp only [consume_rest]
        exact hdrop (mistralList_consumed hmistral hlist)
      · obtain rfl := Option.some.inj h
        simp [skip]
    · split at h
      · obtain rfl := Option.some.inj h
        simp [stop]
      · rename_i hscan
        obtain rfl := Option.some.inj h
        simp only [consume_rest]
        exact hdrop (scanBalancedObject_bounds hscan).1
    · obtain rfl := Option.some.inj h
      simp [skip]

variable {lib}

theorem run_of_step {s t : CallScan} (h : step lib s = some t) : s.run lib = t.run lib :=
  exhaust_of_some (step_shrinks lib) h

/-- The pass comes to the first open bracket of the prose, or to its end. -/
theorem run_prose (lib : JsonLibrary) (prose : Bytes) (calls : List ToolCallResult)
    (residual : Bytes) :
    ∃ calls' residual', calls <+: calls' ∧ ∀ more, Unmarked prose more →
      run lib ⟨prose ++ more, calls, residual⟩ =
          run lib ⟨openEnd prose ++ more, calls', residual'⟩ ∧
        Unmarked (openEnd prose) more := by
  induction prose using exhaust_induction proseStep_shrinks generalizing calls residual with
  | done prose hlast =>
    rw [openEnd, exhaust_of_none hlast]
    exact ⟨calls, residual, prefix_rfl, fun more hmore => ⟨rfl, hmore⟩⟩
  | more prose rest hstep ih =>
    obtain ⟨n, calls₁, residual₁, hn, hrest, hcalls₁, hstep₁⟩ := step_prose lib hstep calls residual
    obtain ⟨calls₂, residual₂, hcalls₂, hrun⟩ := ih calls₁ residual₁
    rw [openEnd, exhaust_of_some proseStep_shrinks hstep, ← openEnd]
    refine ⟨calls₂, residual₂, hcalls₁.trans hcalls₂, fun more hmore => ?_⟩
    rw [run_of_step (hstep₁ more hmore)]
    apply hrun more
    rw [hrest]
    exact hmore.drop hn

theorem run_unclosed {rest more : Bytes} (hc : isBracket c)
    (hscan : scanBalancedObject (c :: rest ++ more) = none) (hmore : Unmarked (c :: rest) more)
    (calls : List ToolCallResult) (residual : Bytes) :
    (run lib ⟨c :: rest ++ more, calls, residual⟩).calls = calls := by
  obtain ⟨hopen, hmistral⟩ := hmore 0 (by simp)
  rw [isBracket] at hc
  simp only [drop_zero, cons_append] at hopen hmistral hscan ⊢
  have hstep : step lib ⟨c :: (rest ++ more), calls, residual⟩ =
      some ⟨[], calls, residual ++ c :: (rest ++ more)⟩ := by
    simp [step, hopen, hmistral, hc, hscan, stop]
  rw [run_of_step hstep, run, exhaust_of_none rfl]

end Pass

/-! ## Envelopes -/

def envelope (body : Bytes) : Bytes := kToolCallOpen ++ body ++ kToolCallClose

/-- The body is a JSON object with a name and arguments; it is no wrapper around the object of
the call, and does not end the envelope. -/
structure IsCall (lib : JsonLibrary) (body name arguments : Bytes) : Prop where
  fields : ∃ fields, lib.parse body = some (.object fields) ∧
    (Json.object fields).find "name" = some (.string name) ∧
    ((Json.object fields).find "arguments" = some (.string arguments) ∨
      ∃ args, (Json.object fields).find "arguments" = some (.object args) ∧
        lib.dump (.object args) = some arguments) ∧
    ∀ wrapped, (Json.object fields).find "tool_call" ≠ some (.object wrapped)
  name_ne_nil : name ≠ []
  unclosed : first [kToolCallClose] body = none

variable {name : Bytes}

theorem parseCalls_of_isCall {lib : JsonLibrary} {arguments : Bytes}
    (h : IsCall lib body name arguments) (n : Nat) :
    ∃ callId, parseCalls lib n body true = some [⟨callId, name, arguments⟩] := by
  obtain ⟨⟨fields, hparse, hname, harguments, hwrapped⟩, hne, _⟩ := h
  refine ⟨bytes "call_" ++ name ++ bytes ("_" ++ toString n), ?_⟩
  simp only [parseCalls, hparse, fill, hname, List.isEmpty_iff, hne, if_false]
  obtain hargs | ⟨args, hargs, hdump⟩ := harguments
  · simp [hargs]
  · simp [hargs, hdump]

theorem first_close (h : first [kToolCallClose] body = none) :
    first [kToolCallClose] (body ++ kToolCallClose) = some body.length := by
  refine first_eq_some_iff.mpr ⟨⟨kToolCallClose, by simp, by decide, ?_⟩, ?_⟩
  · rw [drop_left]
  · rintro j hj ⟨m, hm, hne, hpre⟩
    obtain rfl := mem_singleton.mp hm
    obtain hin | ⟨k, hpos, hlt, hpre⟩ := straddles hj hpre
    · exact first_eq_none_iff.mp h j ⟨kToolCallClose, by simp, by decide, hin⟩
    · have hborder : ∀ k < kToolCallClose.length, 0 < k →
          ¬ kToolCallClose.drop k <+: kToolCallClose := by decide
      exact hborder k hlt hpos hpre

theorem run_envelope {lib : JsonLibrary} {arguments : Bytes} (h : IsCall lib body name arguments)
    (calls : List ToolCallResult) (residual : Bytes) :
    ∃ callId, ⟨callId, name, arguments⟩ ∈ (run lib ⟨envelope body, calls, residual⟩).calls := by
  obtain ⟨callId, hparse⟩ := parseCalls_of_isCall h calls.length
  have hopen : kToolCallOpen <+: envelope body := by
    exact prefix_append ..
  have hinner : (envelope body).drop kToolCallOpen.length = body ++ kToolCallClose := by
    rw [envelope, append_assoc, drop_left]
  have hstep : step lib ⟨envelope body, calls, residual⟩ =
      some ⟨[], calls ++ [⟨callId, name, arguments⟩], residual⟩ := by
    cases hcons : envelope body with
    | nil =>
      rw [hcons] at hopen
      exact absurd hopen (by decide)
    | cons c rest =>
      rw [hcons] at hopen hinner
      simp only [step, hopen, if_true, hinner, first_close h.unclosed, take_left, consume, hparse]
      rw [← hcons]
      simp [envelope]
      omega
  refine ⟨callId, ?_⟩
  rw [run_of_step hstep, run, exhaust_of_none rfl]
  simp

/-- No marker begins in prose without markers, since an envelope begins like no end of one. -/
theorem unmarked_envelope (hopen : first [kToolCallOpen] prose = none)
    (hmistral : first [kMistral] prose = none) (body : Bytes) : Unmarked prose (envelope body) := by
  have hhead : (envelope body).head? = some 60 := by
    rw [envelope, append_assoc, head?_append_of_ne_nil _ (by decide)]
    decide
  have hmarker (m : Bytes) (hne : m ≠ []) (hm : ∀ k < m.length, 0 < k → (m.drop k).head? ≠ some 60)
      (hnone : first [m] prose = none) (i : Nat) (hi : i < prose.length) :
      ¬ m <+: (prose ++ envelope body).drop i := by
    intro hpre
    obtain hin | ⟨k, hpos, hlt, hpre⟩ := straddles hi hpre
    · exact first_eq_none_iff.mp hnone i ⟨m, by simp, hne, hin⟩
    · apply hm k hlt hpos
      obtain ⟨more, hmore⟩ := hpre
      rw [← hmore, head?_append_of_ne_nil] at hhead
      · exact hhead
      · intro hnil
        have := congrArg length hnil
        rw [length_drop, length_nil] at this
        omega
  intro i hi
  exact ⟨hmarker _ (by decide) (by decide) hopen i hi,
    hmarker _ (by decide) (by decide) hmistral i hi⟩

/-! ## What an open bracket does to an envelope -/

/-- The parts of the envelope of a call without arguments, around its name. -/
def envelopeHead : Bytes := bytes "<tool_call>\x7b\"name\":\""
def envelopeArguments : Bytes := bytes "\",\"arguments\":\"\""
def envelopeEnd : Bytes := bytes "\x7d</tool_call>"

theorem envelope_plainCall (name : Bytes) :
    envelope (plainCall name) = envelopeHead ++ (name ++ (envelopeArguments ++ envelopeEnd)) := by
  have hhead : kToolCallOpen ++ bytes "\x7b\"name\":\"" = envelopeHead := by decide
  have htail : bytes "\",\"arguments\":\"\"\x7d" ++ kToolCallClose =
      envelopeArguments ++ envelopeEnd := by decide
  rw [envelope, plainCall, ← hhead, ← htail]
  simp

variable {s : Nesting}

theorem scanLoop_skip {opening closing : UInt8} (hdepth : 1 ≤ s.depth) {a : Bytes} (h : closing ∉ a)
    {b : Bytes}
    (hb : scanLoop opening closing (a.foldl (Nesting.read opening closing) s) b = none) :
    scanLoop opening closing s (a ++ b) = none := by
  rw [(scanLoop_append_of_none hdepth (scanLoop_of_not_mem h)).2 b, hb, Option.map_none]

theorem foldl_read_letters (hesc : s.esc = false) (h : name.all isLetter) :
    name.foldl (Nesting.read kOpenBrace kCloseBrace) s = s := by
  induction name with
  | nil => rfl
  | cons c name ih =>
    obtain ⟨hc, hname⟩ := Bool.and_eq_true_iff.mp h
    have hread : s.read kOpenBrace kCloseBrace c = s := by
      have hne : c ≠ kBackslash ∧ c ≠ kQuote ∧ c ≠ kOpenBrace ∧ c ≠ kCloseBrace := by
        refine ⟨?_, ?_, ?_, ?_⟩ <;>
        · rintro rfl
          cases hc
      simp [Nesting.read, hne, hesc]
    rw [foldl_cons, hread, ih hname]

theorem foldl_read_head (s : Nesting) :
    envelopeHead.foldl (Nesting.read kOpenBrace kCloseBrace) s =
      if s.inStr then { depth := s.depth } else { depth := s.depth + 1, inStr := true } := by
  have hbytes : envelopeHead = [60, 116, 111, 111, 108, 95, 99, 97, 108, 108, 62, 123, 34, 110, 97, 109, 101, 34, 58, 34] := by decide
  obtain ⟨depth, inStr, esc⟩ := s
  cases inStr <;> cases esc <;>
    simp [hbytes, Nesting.read, kQuote, kBackslash, kOpenBrace, kCloseBrace]

theorem foldl_read_arguments (hesc : s.esc = false) :
    envelopeArguments.foldl (Nesting.read kOpenBrace kCloseBrace) s =
      { s with inStr := !s.inStr } := by
  have hbytes : envelopeArguments = [34, 44, 34, 97, 114, 103, 117, 109, 101, 110, 116, 115, 34, 58, 34, 34] := by decide
  obtain ⟨depth, inStr, esc⟩ := s
  cases inStr <;> simp_all [Nesting.read, kQuote, kBackslash, kOpenBrace, kCloseBrace]

/-- The brace at the end of the envelope closes the one at its beginning, or is in a string. -/
theorem scanLoop_end (h : s.inStr ∨ 2 ≤ s.depth) :
    scanLoop kOpenBrace kCloseBrace s envelopeEnd = none := by
  have hend : envelopeEnd = kCloseBrace :: kToolCallClose := by decide
  have hrest (t : Nesting) : scanLoop kOpenBrace kCloseBrace t kToolCallClose = none :=
    scanLoop_of_not_mem (by decide)
  have hne : kCloseBrace ≠ kQuote ∧ kCloseBrace ≠ kOpenBrace := by decide
  rw [hend, scanLoop]
  by_cases hstr : s.inStr
  · simp [hstr, hrest]
  · have hdepth := h.resolve_left hstr
    have hread : (s.read kOpenBrace kCloseBrace kCloseBrace).depth = s.depth - 1 := by
      simp [Nesting.read, hstr, hne]
    have hpos : ¬ s.depth - 1 = 0 ∧ ¬ s.depth - 1 < 0 := by omega
    simp [hread, hrest, hpos]

/-- An open bracket stays open over an envelope without arguments: outside of strings the
envelope is balanced, and inside of a string its own strings are outside. -/
theorem scan_plain_envelope (hc : isBracket c) (hdepth : 1 ≤ s.depth) (hname : name.all isLetter) :
    scanLoop c (closingOf c) s (envelope (plainCall name)) = none := by
  have hmem {c : UInt8} (h : ¬ isLetter c) : c ∉ name := fun hmem =>
    h (all_eq_true.mp hname c hmem)
  rw [envelope_plainCall]
  rw [isBracket, Bool.or_eq_true, decide_eq_true_eq, decide_eq_true_eq] at hc
  obtain rfl | rfl := hc
  · have hclosing : closingOf kOpenBrace = kCloseBrace := by decide
    have hhead : kCloseBrace ∉ envelopeHead := by decide
    have harguments : kCloseBrace ∉ envelopeArguments := by decide
    apply scanLoop_skip hdepth hhead
    rw [foldl_read_head]
    generalize hs₁ : (if s.inStr then ({ depth := s.depth } : Nesting)
      else { depth := s.depth + 1, inStr := true }) = s₁
    have hdepth₁ : 1 ≤ s₁.depth := by
      subst hs₁
      split_ifs <;> simp only <;> omega
    have hesc : s₁.esc = false := by
      subst hs₁
      split_ifs <;> rfl
    apply scanLoop_skip hdepth₁ (hmem (by decide))
    rw [foldl_read_letters hesc hname]
    apply scanLoop_skip hdepth₁ harguments
    rw [foldl_read_arguments hesc]
    apply scanLoop_end
    subst hs₁
    split_ifs with hstr
    · exact .inl rfl
    · exact .inr (by simp only; omega)
  · apply scanLoop_of_not_mem
    have hhead : closingOf kOpenBracket ∉ envelopeHead := by decide
    have htail : closingOf kOpenBracket ∉ envelopeArguments ++ envelopeEnd := by decide
    have hletters : closingOf kOpenBracket ∉ name := hmem (by decide)
    rw [mem_append, mem_append, not_or, not_or]
    exact ⟨hhead, hletters, htail⟩

theorem isCall_plainCall (lib : JsonLibrary) (hname : name.all isLetter) (hne : name ≠ []) :
    IsCall lib (plainCall name) name [] := by
  have hnames : bytes "name" ≠ bytes "arguments" ∧ bytes "name" ≠ bytes "tool_call" ∧
      bytes "arguments" ≠ bytes "tool_call" := by decide
  refine ⟨⟨_, lib.reads name hname, ?_, .inl ?_, ?_⟩, hne, ?_⟩
  · simp [Json.find]
  · simp [Json.find, hnames]
  · simp [Json.find, hnames]
  · rw [first_eq_none_iff]
    rintro i ⟨m, hm, _, hpre⟩
    obtain rfl := mem_singleton.mp hm
    have hmem : (60 : UInt8) ∈ plainCall name :=
      mem_of_mem_drop (hpre.subset (by decide))
    rw [plainCall, mem_append, mem_append] at hmem
    obtain (hmem | hmem) | hmem := hmem
    · exact absurd hmem (by decide)
    · cases all_eq_true.mp hname 60 hmem
    · exact absurd hmem (by decide)

/-- Every call after the prose is found exactly if the prose leaves no bracket open. -/
theorem calls_after_prose_iff (lib : JsonLibrary) (prose : Bytes)
    (hopen : first [kToolCallOpen] prose = none) (hmistral : first [kMistral] prose = none) :
    (∀ body name arguments, IsCall lib body name arguments →
      ∃ call ∈ (detectToolCalls lib (prose ++ envelope body)).calls,
        call.functionName = name ∧ call.argumentsJson = arguments) ↔ Closed prose := by
  have hunmarked (body : Bytes) := unmarked_envelope hopen hmistral body
  obtain ⟨calls, residual, _, hrun⟩ := run_prose lib prose [] []
  constructor
  · intro hfound
    by_contra hclosed
    obtain ⟨c, rest, hend, hc, hscan⟩ := openEnd_unclosed hclosed
    -- a call with a longer name than any that the prose itself contains
    let name := replicate ((calls.map fun call => call.functionName.length).sum + 1) (97 : UInt8)
    have hname : name.all isLetter := by
      rw [all_eq_true]
      intro c hmem
      rw [eq_of_mem_replicate hmem]
      decide
    have hne : name ≠ [] := by simp [name]
    obtain ⟨call, hmem, hcall, _⟩ := hfound _ name [] (isCall_plainCall lib hname hne)
    obtain ⟨hpass, hmarks⟩ := hrun _ (hunmarked (plainCall name))
    have hcalls : (detectToolCalls lib (prose ++ envelope (plainCall name))).calls = calls := by
      rw [detectToolCalls, hpass, hend] at *
      refine run_unclosed hc ?_ hmarks calls residual
      rw [cons_append, scanBalancedObject_cons hc]
      rw [scanBalancedObject_cons hc, Option.map_eq_none_iff] at hscan
      obtain ⟨hdepth, happend⟩ := scanLoop_append_of_none (by decide) hscan
      rw [happend, scan_plain_envelope hc hdepth hname]
      rfl
    rw [hcalls] at hmem
    have hle : call.functionName.length ≤ (calls.map fun call => call.functionName.length).sum :=
      le_sum_of_mem (mem_map_of_mem hmem)
    rw [hcall, length_replicate] at hle
    omega
  · intro hclosed body name arguments hcall
    obtain ⟨hpass, _⟩ := hrun _ (hunmarked body)
    obtain ⟨callId, hmem⟩ := run_envelope hcall calls residual
    refine ⟨⟨callId, name, arguments⟩, ?_, rfl, rfl⟩
    rw [hclosed, nil_append] at hpass
    rw [detectToolCalls, hpass]
    exact hmem

/-- A library that reads calls without arguments and nothing else. -/
def plainLibrary : JsonLibrary where
  parse text :=
    let name := (text.drop 9).take (text.length - 26)
    if text = plainCall name then some (plainDocument name) else none
  dump _ := none
  reads name _ := by
    have hhead : (bytes "\x7b\"name\":\"").length = 9 := by decide
    have htail : (bytes "\",\"arguments\":\"\"\x7d").length = 17 := by decide
    have hlen : (plainCall name).length - 26 = name.length := by
      simp only [plainCall, List.length_append, hhead, htail]
      omega
    have hname : ((plainCall name).drop 9).take ((plainCall name).length - 26) = name := by
      rw [hlen, plainCall, List.append_assoc, ← hhead, List.drop_left, List.take_left]
    simp [hname]

theorem call_after_sentence :
    ∃ call ∈ (detectToolCalls plainLibrary
        (bytes "Calling \x7bf\x7d: " ++ envelope (plainCall (bytes "f")))).calls,
      call.functionName = bytes "f" ∧ call.argumentsJson = [] :=
  (calls_after_prose_iff plainLibrary (bytes "Calling \x7bf\x7d: ") (by decide) (by decide)).mpr
    (by decide) _ _ _ (isCall_plainCall plainLibrary (by decide) (by decide))

/-- A brace that prose leaves open hides the call behind it. -/
theorem call_after_open_brace :
    IsCall plainLibrary (plainCall (bytes "f")) (bytes "f") [] ∧
      (detectToolCalls plainLibrary
        (bytes "Use \x7b here: " ++ envelope (plainCall (bytes "f")))).calls = [] :=
  ⟨isCall_plainCall plainLibrary (by decide) (by decide), by decide⟩

end InferFlux.Http
