import FspServer.DownloadManager
import FspServer.Transfers
import FspServer.Lib.Lines

/-!
# The hello message of a transfer

A peer that connects to the download port sends one line: a type, a delimiter and
the number of a transaction. `TryInitTransaction` reads until `LINE_SEPARATOR` in
a future that nobody asks for its exception, so it goes on with whatever arrived;
it then splits the text before the first line feed, and gives the second field to
`std::stoull`.

* `stoull_eq_some_iff` is the grammar of what `std::stoull` accepts.
* `hello_exact_iff` says for which bytes what is accepted is a complete line of
  the two fields alone: those whose number has no blank or sign before its digits
  and the separator right after them.
-/

namespace FspServer

open Lines

/-! ## What `std::stoull` accepts -/

/-- The value of decimal digits. -/
def decimal (digits : Str) : Nat := digits.foldl (fun n d => 10 * n + (d.toNat - 48)) 0

/-- A text as `std::stoull` takes it apart. -/
structure Numeral where
  blanks : Str
  sign : Str
  digits : Str
  trailing : Str
deriving DecidableEq, Repr

namespace Numeral

def text (t : Numeral) : Str := t.blanks ++ (t.sign ++ (t.digits ++ t.trailing))

def value (t : Numeral) : Nat :=
  if t.sign = ['-'] then (2 ^ 64 - decimal t.digits) % 2 ^ 64 else decimal t.digits

/-- The digits are there, are all that follow, and do not overflow. -/
structure Accepted (t : Numeral) : Prop where
  blanks : ∀ c ∈ t.blanks, isSpace c = true
  sign : t.sign = [] ∨ t.sign = ['-'] ∨ t.sign = ['+']
  nonempty : t.digits ≠ []
  digits : ∀ c ∈ t.digits, c.isDigit = true
  trailing : ∀ c ∈ t.trailing.head?, c.isDigit = false
  fits : decimal t.digits < 2 ^ 64

end Numeral

/-- After the blanks comes the sign, or the first digit. -/
theorem Numeral.Accepted.dropWhile_text {t : Numeral} (h : t.Accepted) :
    t.text.dropWhile isSpace = t.sign ++ (t.digits ++ t.trailing) := by
  rw [Numeral.text, List.dropWhile_append_of_pos h.blanks]
  rcases h.sign with hsign | hsign | hsign
  · obtain ⟨d, digits, hdigits⟩ := List.exists_cons_of_ne_nil h.nonempty
    have hspace := (plain_of_isDigit (h.digits d (by simp [hdigits]))).1
    rw [hsign, hdigits]
    exact List.dropWhile_cons_of_neg (by simp [hspace])
  · rw [hsign]
    exact List.dropWhile_cons_of_neg (by decide)
  · rw [hsign]
    exact List.dropWhile_cons_of_neg (by decide)

theorem Numeral.Accepted.takeWhile_digits {t : Numeral} (h : t.Accepted) :
    (t.digits ++ t.trailing).takeWhile Char.isDigit = t.digits := by
  rw [List.takeWhile_append_of_pos h.digits]
  cases htrailing : t.trailing with
  | nil => simp
  | cons c rest =>
    have hc := h.trailing c (by simp [htrailing])
    rw [List.takeWhile_cons_of_neg (by simp [hc]), List.append_nil]

/-- The sign, and what is after it. -/
def splitSign : Str → Bool × Str
  | '-' :: rest => (true, rest)
  | '+' :: rest => (false, rest)
  | rest => (false, rest)

theorem stoull_eq (text : Str) :
    stoull text =
      let signed := splitSign (text.dropWhile isSpace)
      let digits := signed.2.takeWhile Char.isDigit
      if digits = [] ∨ 2 ^ 64 ≤ decimal digits then none
      else some (if signed.1 then (2 ^ 64 - decimal digits) % 2 ^ 64 else decimal digits) := rfl

theorem splitSign_of_ne {c : Char} {rest : Str} (hminus : c ≠ '-') (hplus : c ≠ '+') :
    splitSign (c :: rest) = (false, c :: rest) := by
  unfold splitSign
  split
  · next heq => exact absurd (List.cons.inj heq).1 hminus
  · next heq => exact absurd (List.cons.inj heq).1 hplus
  · rfl

theorem Numeral.Accepted.splitSign_text {t : Numeral} (h : t.Accepted) :
    splitSign (t.text.dropWhile isSpace) = (decide (t.sign = ['-']), t.digits ++ t.trailing) := by
  rw [h.dropWhile_text]
  rcases h.sign with hsign | hsign | hsign
  · obtain ⟨d, digits, hdigits⟩ := List.exists_cons_of_ne_nil h.nonempty
    obtain ⟨-, hminus, hplus⟩ := plain_of_isDigit (h.digits d (by simp [hdigits]))
    rw [hsign, hdigits]
    exact splitSign_of_ne hminus hplus
  · rw [hsign]
    rfl
  · rw [hsign]
    rfl

theorem stoull_text {t : Numeral} (h : t.Accepted) : stoull t.text = some t.value := by
  have hfits : ¬ (t.digits = [] ∨ 2 ^ 64 ≤ decimal t.digits) := by
    rintro (hempty | hlarge)
    · exact h.nonempty hempty
    · exact absurd h.fits (Nat.not_lt.mpr hlarge)
  rw [stoull_eq, h.splitSign_text]
  simp only [h.takeWhile_digits, if_neg hfits, decide_eq_true_eq]
  rfl

/-- The sign that `splitSign` took. -/
theorem exists_sign (text : Str) :
    ∃ sign, text = sign ++ (splitSign text).2 ∧ (sign = [] ∨ sign = ['-'] ∨ sign = ['+']) := by
  unfold splitSign
  split
  · exact ⟨['-'], rfl, .inr (.inl rfl)⟩
  · exact ⟨['+'], rfl, .inr (.inr rfl)⟩
  · exact ⟨[], rfl, .inl rfl⟩

theorem stoull_eq_some_iff {text : Str} {n : Nat} :
    stoull text = some n ↔ ∃ t : Numeral, t.Accepted ∧ t.text = text ∧ t.value = n := by
  constructor
  · intro h
    obtain ⟨sign, hsign, hsigns⟩ := exists_sign (text.dropWhile isSpace)
    let rest := (splitSign (text.dropWhile isSpace)).2
    let t : Numeral := ⟨text.takeWhile isSpace, sign, rest.takeWhile Char.isDigit,
      rest.dropWhile Char.isDigit⟩
    have htext : t.text = text := by
      show text.takeWhile isSpace ++
        (sign ++ (rest.takeWhile Char.isDigit ++ rest.dropWhile Char.isDigit)) = text
      rw [List.takeWhile_append_dropWhile, ← hsign, List.takeWhile_append_dropWhile]
    have hparse : ¬ (t.digits = [] ∨ 2 ^ 64 ≤ decimal t.digits) := by
      intro hbad
      rw [stoull_eq] at h
      cases (if_pos hbad).symm.trans h
    obtain ⟨hnonempty, hfits⟩ := not_or.mp hparse
    have htrailing : ∀ c ∈ t.trailing.head?, c.isDigit = false := by
      intro c hc
      have hhead := List.head?_dropWhile_not Char.isDigit rest
      rw [Option.mem_def.mp hc] at hhead
      exact hhead
    have haccepted : t.Accepted :=
      ⟨fun c hc => List.mem_takeWhile_imp hc, hsigns, hnonempty,
        fun c hc => List.mem_takeWhile_imp hc, htrailing, Nat.not_le.mp hfits⟩
    exact ⟨t, haccepted, htext, Option.some.inj ((stoull_text haccepted).symm.trans (htext ▸ h))⟩
  · rintro ⟨t, h, rfl, rfl⟩
    exact stoull_text h

/-! ## Reading a hello message -/

/-- The constants of the protocol. A separator of lines has no digits. -/
structure HelloConfig where
  LINE_SEPARATOR : Str
  DOWNLOAD_TRANSACTION_DELIM_CHR : Char
  RECEIVER_CODE_STR : Str
  SENDER_CODE_STR : Str
  separator_no_digit : ∀ c ∈ LINE_SEPARATOR, c.isDigit = false

structure HelloMessage where
  HelloType : Str
  TransactionID : Nat
deriving DecidableEq, Repr

/-- `TryInitTransaction` on the fragments that arrive before the peer closes the
connection; `none` when it returns false. Both outcomes of `read_until` are a future
that is ready. -/
def tryInitTransaction (cfg : HelloConfig) (timeout : Bool) (fragments : List Str) :
    Option HelloMessage :=
  if timeout then none
  else
    let tempBuffer := readUntil cfg.LINE_SEPARATOR [] fragments
    let message := tempBuffer.takeWhile (· ≠ '\n')
    match message.splitOn cfg.DOWNLOAD_TRANSACTION_DELIM_CHR with
    | [helloType, transactionID] => (stoull transactionID).map (⟨helloType, ·⟩)
    | _ => none

/-- The comparisons of `HandleHandshake`. -/
def HelloConfig.helloType (cfg : HelloConfig) (text : Str) : HelloType :=
  if text = cfg.RECEIVER_CODE_STR then .RECEIVER_CODE_STR
  else if text = cfg.SENDER_CODE_STR then .SENDER_CODE_STR
  else .other

/-- `HandleHandshake`. -/
def DownloadManager.session (cfg : HelloConfig) (build : Build) (env : HelloEnv)
    (error timeout : Bool) (fragments : List Str) (m : DownloadManager) : DownloadManager :=
  if error then { m with sessions := m.sessions + 1 }
  else match tryInitTransaction cfg timeout fragments with
    | none => { m with sessions := m.sessions + 1 }
    | some hello =>
      m.handleHandshake build env (cfg.helloType hello.HelloType) hello.TransactionID

/-! ## Exact hello messages -/

/-- The peer sent a complete line: the type, one delimiter, and digits that denote the
number. -/
def HelloMessage.IsLine (cfg : HelloConfig) (fragments : List Str) (hello : HelloMessage) : Prop :=
  ∃ digits, firstLine cfg.LINE_SEPARATOR fragments.flatten =
      some (hello.HelloType ++ cfg.DOWNLOAD_TRANSACTION_DELIM_CHR :: digits) ∧
    digits ≠ [] ∧ (∀ c ∈ digits, c.isDigit = true) ∧ decimal digits = hello.TransactionID

/-- The text that `getline` finds has two fields, the second one as `std::stoull` takes
it apart. -/
structure Arrives (cfg : HelloConfig) (fragments : List Str) (type : Str) (t : Numeral) : Prop where
  accepted : t.Accepted
  message : (readUntil cfg.LINE_SEPARATOR [] fragments).takeWhile (· ≠ '\n') =
    type ++ cfg.DOWNLOAD_TRANSACTION_DELIM_CHR :: t.text
  type : cfg.DOWNLOAD_TRANSACTION_DELIM_CHR ∉ type
  text : cfg.DOWNLOAD_TRANSACTION_DELIM_CHR ∉ t.text

variable {cfg : HelloConfig} {fragments : List Str}

/-- The hello messages that are accepted. -/
theorem tryInitTransaction_eq_some_iff {timeout : Bool} {hello : HelloMessage} :
    tryInitTransaction cfg timeout fragments = some hello ↔ timeout = false ∧
      ∃ t, Arrives cfg fragments hello.HelloType t ∧ t.value = hello.TransactionID := by
  cases timeout with
  | true => simp [tryInitTransaction]
  | false =>
    simp only [tryInitTransaction, Bool.false_eq_true, ↓reduceIte, true_and]
    constructor
    · intro h
      split at h
      · next type text hsplit =>
        obtain ⟨n, hn, rfl⟩ := Option.map_eq_some_iff.mp h
        obtain ⟨hmessage, htype, htext⟩ := splitOn_eq_pair_iff.mp hsplit
        obtain ⟨t, haccepted, rfl, hvalue⟩ := stoull_eq_some_iff.mp hn
        exact ⟨t, ⟨haccepted, hmessage, htype, htext⟩, hvalue⟩
      · cases h
    · rintro ⟨t, ht, hvalue⟩
      rw [splitOn_eq_pair_iff.mpr ⟨ht.message, ht.type, ht.text⟩]
      simp [stoull_text ht.accepted, hvalue]

/-- What is left of an accepted message after the digits that end its line. -/
theorem Arrives.exists_after {type digits : Str} {t : Numeral} (h : Arrives cfg fragments type t)
    (hline : firstLine cfg.LINE_SEPARATOR fragments.flatten =
      some (type ++ cfg.DOWNLOAD_TRANSACTION_DELIM_CHR :: digits))
    (hdigits : ∀ c ∈ digits, c.isDigit = true) :
    ∃ after, t.text = digits ++ after ∧ after.takeWhile Char.isDigit = [] := by
  rw [← firstLine_readUntil] at hline
  obtain ⟨rest, hrest⟩ := firstLine_eq_some hline
  have hmessage := h.message
  have hfeed : ∀ c ∈ type ++ cfg.DOWNLOAD_TRANSACTION_DELIM_CHR :: digits,
      decide (c ≠ '\n') = true := by
    intro c hc
    rw [List.append_cons, List.mem_append] at hc
    rcases hc with hc | hc
    · have hmem : c ∈ type ++ cfg.DOWNLOAD_TRANSACTION_DELIM_CHR :: t.text := by
        rw [List.append_cons]
        exact List.mem_append_left _ hc
      rw [← hmessage] at hmem
      exact List.mem_takeWhile_imp (p := fun c => decide (c ≠ '\n')) hmem
    · have hc' := (plain_of_isDigit (hdigits c hc)).1
      refine decide_eq_true fun heq => ?_
      rw [heq] at hc'
      exact absurd hc' (by decide)
  rw [hrest, List.takeWhile_append_of_pos hfeed, List.append_assoc, List.cons_append] at hmessage
  refine ⟨(cfg.LINE_SEPARATOR ++ rest).takeWhile (· ≠ '\n'), ?_, ?_⟩
  · exact (List.cons.inj (List.append_cancel_left hmessage)).2.symm
  · cases hseparator : cfg.LINE_SEPARATOR with
    | nil =>
      rw [hseparator, firstLine_nil] at hline
      simp at hline
    | cons c separator =>
      have hc := cfg.separator_no_digit c (by simp [hseparator])
      rw [List.cons_append, List.takeWhile_cons]
      split
      · exact List.takeWhile_cons_of_neg (by simp [hc])
      · rfl

/-- When the line of an accepted message ends after digits, these digits are all that
`std::stoull` read. -/
theorem Arrives.eq_of_line {type digits : Str} {t : Numeral} (h : Arrives cfg fragments type t)
    (hline : firstLine cfg.LINE_SEPARATOR fragments.flatten =
      some (type ++ cfg.DOWNLOAD_TRANSACTION_DELIM_CHR :: digits))
    (hne : digits ≠ []) (hdigits : ∀ c ∈ digits, c.isDigit = true) :
    t.blanks = [] ∧ t.sign = [] ∧ t.digits = digits := by
  obtain ⟨after, htext, hafter⟩ := h.exists_after hline hdigits
  obtain ⟨d, ds, rfl⟩ := List.exists_cons_of_ne_nil hne
  obtain ⟨hspace, hminus, hplus⟩ := plain_of_isDigit (hdigits d List.mem_cons_self)
  rw [Numeral.text, List.cons_append] at htext
  have hblanks : t.blanks = [] := by
    cases hb : t.blanks with
    | nil => rfl
    | cons b blanks =>
      rw [hb] at htext
      have hb' := h.accepted.blanks b (by simp [hb])
      rw [(List.cons.inj htext).1, hspace] at hb'
      cases hb'
  rw [hblanks, List.nil_append] at htext
  have hsign : t.sign = [] := by
    rcases h.accepted.sign with hs | hs | hs
    · exact hs
    · rw [hs] at htext
      exact absurd (List.cons.inj htext).1.symm hminus
    · rw [hs] at htext
      exact absurd (List.cons.inj htext).1.symm hplus
  rw [hsign, List.nil_append] at htext
  refine ⟨hblanks, hsign, ?_⟩
  have htake := h.accepted.takeWhile_digits
  rw [htext, ← List.cons_append, List.takeWhile_append_of_pos hdigits, hafter,
    List.append_nil] at htake
  exact htake.symm

/-- For all fragments that a peer sends: what is accepted is a complete line of a type, a
delimiter and digits that denote the number, exactly when in every accepted form of the
message no blank or sign is before the digits and the separator ends the line right
after them. -/
theorem hello_exact_iff (cfg : HelloConfig) (timeout : Bool) (fragments : List Str) :
    (∀ hello, tryInitTransaction cfg timeout fragments = some hello →
      hello.IsLine cfg fragments) ↔
    (timeout = false → ∀ type t, Arrives cfg fragments type t →
      t.blanks = [] ∧ t.sign = [] ∧ firstLine cfg.LINE_SEPARATOR fragments.flatten =
        some (type ++ cfg.DOWNLOAD_TRANSACTION_DELIM_CHR :: t.digits)) := by
  constructor
  · intro hline htimeout type t ht
    obtain ⟨digits, hfirst, hne, hdigits, -⟩ :=
      hline ⟨type, t.value⟩ (tryInitTransaction_eq_some_iff.mpr ⟨htimeout, t, ht, rfl⟩)
    obtain ⟨hblanks, hsign, rfl⟩ := ht.eq_of_line hfirst hne hdigits
    exact ⟨hblanks, hsign, hfirst⟩
  · intro hexact hello hhello
    obtain ⟨htimeout, t, ht, hvalue⟩ := tryInitTransaction_eq_some_iff.mp hhello
    obtain ⟨-, hsign, hfirst⟩ := hexact htimeout hello.HelloType t ht
    refine ⟨t.digits, hfirst, ht.accepted.nonempty, ht.accepted.digits, ?_⟩
    rw [← hvalue, Numeral.value, if_neg (by simp [hsign])]

/-- When `getline` stops inside the separator, the fragments do not matter, only what they
make up. -/
theorem tryInitTransaction_flatten (hfeed : '\n' ∈ cfg.LINE_SEPARATOR) (timeout : Bool)
    (fragments : List Str) :
    tryInitTransaction cfg timeout fragments =
      tryInitTransaction cfg timeout [fragments.flatten] := by
  have hwhole := takeWhile_readUntil hfeed [fragments.flatten]
  rw [List.flatten_singleton] at hwhole
  simp only [tryInitTransaction, takeWhile_readUntil hfeed fragments, hwhole]

def sampleHelloConfig : HelloConfig := ⟨['\n'], '|', ['R'], ['S'], by simp⟩

/-- A hello for the transaction 123 is cut after two digits and is taken for one of the
transaction 12; so is a line whose number has a blank and a sign before it and a letter
after it. -/
theorem truncated_hello_accepted :
    (∀ (m : DownloadManager) (build : Build) (env : HelloEnv),
      m.session sampleHelloConfig build env false false [['S', '|', '1', '2']] =
        m.handleHandshake build env .SENDER_CODE_STR 12) ∧
    tryInitTransaction sampleHelloConfig false [['S', '|', '1', '2']] = some ⟨['S'], 12⟩ ∧
    ¬ (⟨['S'], 12⟩ : HelloMessage).IsLine sampleHelloConfig [['S', '|', '1', '2']] ∧
    tryInitTransaction sampleHelloConfig false [['S', '|', ' ', '+', '1', '2', 'x', '\n']] =
      some ⟨['S'], 12⟩ ∧
    ¬ (⟨['S'], 12⟩ : HelloMessage).IsLine sampleHelloConfig
      [['S', '|', ' ', '+', '1', '2', 'x', '\n']] := by
  have hcut : tryInitTransaction sampleHelloConfig false [['S', '|', '1', '2']] =
      some ⟨['S'], 12⟩ := by decide
  have hpadded : tryInitTransaction sampleHelloConfig false
      [['S', '|', ' ', '+', '1', '2', 'x', '\n']] = some ⟨['S'], 12⟩ := by decide
  refine ⟨fun m build env => ?_, hcut, ?_, hpadded, ?_⟩
  · rw [DownloadManager.session, hcut]
    rfl
  · rintro ⟨digits, hline, -⟩
    simp [firstLine, sampleHelloConfig] at hline
  · rintro ⟨digits, hline, -, hdigits, -⟩
    obtain rfl : digits = [' ', '+', '1', '2', 'x'] := by
      simpa [firstLine, sampleHelloConfig] using hline.symm
    exact absurd (hdigits ' ' (by simp)) (by decide)

end FspServer
