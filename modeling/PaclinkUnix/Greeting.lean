import PaclinkUnix.Completion

/-!
The two handshakes: what `wl2kax25d` says first, and how the handshake of `wl2k_exchange`
and that of `wl2kd_exchange` answer one another.
-/

namespace PaclinkUnix

open Effects Effects.Program Duplex

def sidLine (version : Bytes) : Bytes := ascii "[UnixLINK-" ++ version ++ ascii "-B2FIHM$]"

/-- Without the translation of carriage returns, which only `displayconfig` asks for. -/
def printEscChar (char : UInt8) : Session Unit :=
  if char = 97 then write .command [7]
  else if char = 98 then write .command [8]
  else if char = 99 then exit ""
  else if char = 102 then write .command [12]
  else if char = 110 then write .command [10]
  else if char = 114 then write .command [13]
  else if char = 116 then write .command [9]
  else write .command [char]

/-- An escape character that ends the string has the loop step over the terminator. -/
def printEscString : Bytes → Session Unit
  | [] => pure ()
  | [92] => do
      printEscChar 0
      halt .fault
  | 92 :: char :: str => do
      printEscChar char
      printEscString str
  | char :: str => do
      write .command [char]
      printEscString str

def stationLine (gridsquare : Option Bytes) : Bytes :=
  ascii "(am|em:h1,g:" ++ gridsquare.getD (ascii "XXyyzz") ++ ascii ")"

/-- The start of `main` of the daemon. -/
def greeting (config : Config) (gridsquare welcomemsg : Option Bytes) : Session Unit := do
  write .command (sidLine config.packageVersion ++ [carriageReturn])
  write .command (stationLine gridsquare ++ [carriageReturn])
  printEscString (welcomemsg.getD (ascii "Welcome\r"))

/-- `main` of the daemon from its first line to the caller to its last. -/
def wl2kax25d (config : Config) (fuel : Nat) (gridsquare welcomemsg : Option Bytes)
    (oproplist : List Proposal) : Session (List Proposal × Nat) := do
  greeting config gridsquare welcomemsg
  wl2kdExchange config fuel oproplist

def escaped (char : UInt8) : Option UInt8 :=
  if char = 97 then some 7
  else if char = 98 then some 8
  else if char = 99 then none
  else if char = 102 then some 12
  else if char = 110 then some 10
  else if char = 114 then some 13
  else if char = 116 then some 9
  else some char

def unescaped : Bytes → Option Bytes
  | [] => some []
  | [92] => none
  | 92 :: char :: str => do
      let shown ← escaped char
      let text ← unescaped str
      pure (shown :: text)
  | char :: str => do
      let text ← unescaped str
      pure (char :: text)

/-- A line that the handshake reads over. -/
structure Banal (line : Bytes) : Prop where
  plain : ∀ char ∈ line, lineChar char = true
  bracket : 91 ∉ line
  comment : strbegins line (ascii ";") = false
  last : ∃ char, line.getLast? = some char ∧ char ≠ 62

/-- A call sign, as far as the handshakes mind. -/
structure CallSign (call : Bytes) : Prop where
  plain : ∀ char ∈ call, lineChar char = true
  bracket : 91 ∉ call
  comment : call.head? ≠ some 59
  nonempty : call ≠ []
  short : call.length ≤ 20

section Lines

variable {env : Env} {config : Config} {held after : Bytes → Bool} {more : List Event}
  {codes : Option Bytes} {challenge : Bytes} {fuel : Nat} {result line : Bytes}

theorem strchr_isSome {char : UInt8} {text : Bytes} :
    (strchr char text).isSome = true ↔ char ∈ text := by
  induction text with
  | nil => simp [strchr]
  | cons first text ih =>
      rw [strchr]
      split
      · rename_i same
        simp [same]
      · rename_i differs
        rw [ih, List.mem_cons]
        simp [Ne.symm differs]

theorem endsInPrompt_last {char : UInt8} (last : line.getLast? = some char) :
    endsInPrompt line = pure (decide (char = 62)) := by
  rw [endsInPrompt, last]

theorem Goes.banal (banal : Banal line)
    (rest : Goes env (handshake config fuel codes challenge) held after more result) :
    Goes env (handshake config (fuel + 1) codes challenge) held after (lineRead line :: more)
      result := by
  obtain ⟨char, last, notPrompt⟩ := banal.last
  rw [handshake, ← List.singleton_append]
  refine (goes_getline banal.plain).bind ?_
  simp only
  rw [if_neg (by rw [strchr_isSome]; exact banal.bracket),
    if_neg (by rw [banal.comment]; decide), endsInPrompt_last last, decide_eq_false notPrompt]
  exact Goes.quiet (goes_pure _) rest

theorem Goes.banals {banner : List Bytes} (banal : ∀ line ∈ banner, Banal line)
    (rest : Goes env (handshake config fuel codes challenge) held after more result) :
    Goes env (handshake config (fuel + banner.length) codes challenge) held after
      (banner.map lineRead ++ more) result := by
  induction banner with
  | nil => exact rest
  | cons line banner ih =>
      rw [List.length_cons, ← Nat.add_assoc, List.map_cons, List.cons_append]
      exact Goes.banal (banal line (by simp))
        (ih fun other member => banal other (List.mem_cons_of_mem _ member))

theorem sidLine_plain {version : Bytes} (plain : ∀ char ∈ version, lineChar char = true) :
    ∀ char ∈ sidLine version, lineChar char = true := by
  intro char member
  have front : ∀ char ∈ ascii "[UnixLINK-", lineChar char = true := by decide +kernel
  have back : ∀ char ∈ ascii "-B2FIHM$]", lineChar char = true := by decide +kernel
  rw [sidLine, List.mem_append, List.mem_append] at member
  rcases member with (member | member) | member
  · exact front char member
  · exact plain char member
  · exact back char member

theorem sidLine_bracket (version : Bytes) : (strchr 91 (sidLine version)).isSome = true := by
  rw [strchr_isSome, sidLine, List.mem_append, List.mem_append]
  exact .inl (.inl (by decide +kernel))

theorem parseInboundsid_sid (version : Bytes) :
    parseInboundsid (sidLine version) = pure (ascii "-B2FIHM$") := by
  have back : ascii "-B2FIHM$]" = [45, 66, 50, 70, 73, 72, 77, 36, 93] := by decide +kernel
  have dash : strrchr 45 (sidLine version) = some (ascii "-B2FIHM$]") := by
    have reversed : (sidLine version).reverse =
        [93, 36, 77, 72, 73, 70, 50, 66, 45] ++ (ascii "[UnixLINK-" ++ version).reverse := by
      rw [sidLine, List.reverse_append, back]
      rfl
    have front : strchr 45 (sidLine version).reverse =
        some (45 :: (ascii "[UnixLINK-" ++ version).reverse) := by
      rw [reversed]
      simp [strchr]
    have size : (45 :: (ascii "[UnixLINK-" ++ version).reverse).length - 1 =
        (ascii "[UnixLINK-" ++ version).length := by
      rw [List.length_cons, List.length_reverse, Nat.add_sub_cancel]
    rw [strrchr, front]
    simp only [size]
    rw [sidLine, List.drop_left]
  have close : strrchr 93 (ascii "-B2FIHM$]") = some [93] := by decide +kernel
  rw [parseInboundsid, dash]
  simp only [close]
  have upper : strupper ((ascii "-B2FIHM$]").take
      ((ascii "-B2FIHM$]").length - ([93] : Bytes).length)) = ascii "-B2FIHM$" := by decide +kernel
  rw [upper, if_pos (by decide +kernel)]

theorem Goes.sid {version : Bytes} (plain : ∀ char ∈ version, lineChar char = true)
    (rest : Goes env (handshake config fuel (some (ascii "-B2FIHM$")) challenge) held after more
      result) :
    Goes env (handshake config (fuel + 1) codes challenge) held after
      (lineRead (sidLine version) :: more) result := by
  rw [handshake, ← List.singleton_append]
  refine (goes_getline (sidLine_plain plain)).bind ?_
  simp only
  rw [if_pos (sidLine_bracket version), parseInboundsid_sid]
  exact Goes.quiet (goes_pure _) rest

end Lines

def promptLine (config : Config) (props : List Proposal) : Bytes :=
  config.targetcall ++ (ascii " de " ++ (config.mycall ++
    (if props.length ≠ 0 then
      ascii " QTC " ++ (decimal props.length ++ (ascii " msg " ++
        (decimal ((props.map Proposal.usize).sum + 18) ++ ascii " char>")))
    else ascii ">")))

/-- What the daemon says before its prompt. -/
def leadLines (props : List Proposal) : List Bytes :=
  if props.length ≠ 0 then [] else [ascii "No Traffic"]

def lineWritten (text : Bytes) : Event := .wrote .command (text ++ [carriageReturn])

section Start

variable {env : Env} {config : Config} {held : Bytes → Bool}

theorem goes_command {bytes text : Bytes} (same : bytes = text ++ [carriageReturn]) :
    Goes env (write .command bytes) held held [lineWritten text] () := by
  rw [same]
  exact goes_write .command _

theorem goes_p2pStartmsg (props : List Proposal) :
    Goes env (p2pStartmsg config props) held held
      ((leadLines props).map lineWritten ++ [lineWritten (promptLine config props)]) () := by
  have traffic : ascii "No Traffic\r" = ascii "No Traffic" ++ [carriageReturn] := by
    decide +kernel
  have count : ascii " char>\r" = ascii " char>" ++ [carriageReturn] := by decide +kernel
  have ending : ascii ">\r" = ascii ">" ++ [carriageReturn] := by decide +kernel
  rw [p2pStartmsg, leadLines]
  split
  · rename_i some
    refine goes_command ?_
    rw [promptLine, if_pos some, count]
    simp only [List.append_assoc]
  · rename_i empty
    refine (goes_command traffic).bind (goes_command ?_)
    rw [promptLine, if_neg empty, ending]
    simp only [List.append_assoc]

theorem goes_printEscChar {char shown : UInt8} (shows : escaped char = some shown) :
    Goes env (printEscChar char) held held [.wrote .command [shown]] () := by
  rw [escaped] at shows
  rw [printEscChar]
  split_ifs at shows ⊢ <;> cases shows <;> exact goes_write .command _

def shownEvents (text : Bytes) : List Event := text.map fun char => .wrote .command [char]

theorem goes_printEscString {str text : Bytes} (shows : unescaped str = some text) :
    Goes env (printEscString str) held held (shownEvents text) () := by
  induction str using unescaped.induct generalizing text with
  | case1 =>
      rw [unescaped] at shows
      cases shows
      exact goes_pure ()
  | case2 => cases shows
  | case3 char str ih =>
      rw [unescaped] at shows
      obtain ⟨shown, escapes, shows⟩ := Option.bind_eq_some_iff.mp shows
      obtain ⟨rest, behind, same⟩ := Option.bind_eq_some_iff.mp shows
      cases same
      rw [printEscString]
      exact (goes_printEscChar escapes).bind (ih behind)
  | case4 char str lone pair ih =>
      rw [unescaped] at shows
      · obtain ⟨rest, behind, same⟩ := Option.bind_eq_some_iff.mp shows
        cases same
        rw [printEscString]
        · exact (goes_write .command [char]).bind (ih behind)
        · exact lone
        · exact pair
      · exact lone
      · exact pair

/-- The last line ends in the prompt. -/
structure Prompt (line : Bytes) : Prop where
  plain : ∀ char ∈ line, lineChar char = true
  bracket : 91 ∉ line
  comment : strbegins line (ascii ";") = false
  last : line.getLast? = some 62

theorem decimal_bracket (value : Nat) : 91 ∉ decimal value := by
  intro member
  exact absurd (decimal_digits value 91 member).2 (by decide)

theorem promptLine_prompt (props : List Proposal) (target : CallSign config.targetcall)
    (mine : CallSign config.mycall) : Prompt (promptLine config props) := by
  have texts : ∀ text ∈ [ascii " de ", ascii " QTC ", ascii " msg ", ascii " char>", ascii ">"],
      (∀ char ∈ text, lineChar char = true) ∧ 91 ∉ text := by decide +kernel
  have behind : ∀ char, char ∈ promptLine config props → char ∈ config.targetcall ∨
      char ∈ config.mycall ∨ (∃ value, char ∈ decimal value) ∨
      ∃ text ∈ [ascii " de ", ascii " QTC ", ascii " msg ", ascii " char>", ascii ">"],
        char ∈ text := by
    intro char member
    rw [promptLine] at member
    simp only [List.mem_append] at member
    rcases member with target | text | mine | rest
    · exact .inl target
    · exact .inr (.inr (.inr ⟨_, by simp, text⟩))
    · exact .inr (.inl mine)
    · split at rest
      · simp only [List.mem_append] at rest
        rcases rest with text | count | text | size | text
        · exact .inr (.inr (.inr ⟨_, by simp, text⟩))
        · exact .inr (.inr (.inl ⟨_, count⟩))
        · exact .inr (.inr (.inr ⟨_, by simp, text⟩))
        · exact .inr (.inr (.inl ⟨_, size⟩))
        · exact .inr (.inr (.inr ⟨_, by simp, text⟩))
      · exact .inr (.inr (.inr ⟨_, by simp, rest⟩))
  refine ⟨fun char member => ?_, fun member => ?_, ?_, ?_⟩
  · rcases behind char member with inside | inside | ⟨value, inside⟩ | ⟨text, among, inside⟩
    · exact target.plain char inside
    · exact mine.plain char inside
    · exact decimal_lineChar value char inside
    · exact (texts text among).1 char inside
  · rcases behind 91 member with inside | inside | ⟨value, inside⟩ | ⟨text, among, inside⟩
    · exact target.bracket inside
    · exact mine.bracket inside
    · exact decimal_bracket value inside
    · exact (texts text among).2 inside
  · have comment : ascii ";" = [59] := by decide +kernel
    rcases first : config.targetcall with _ | ⟨char, rest⟩
    · exact absurd first target.nonempty
    · have other := target.comment
      rw [first, List.head?_cons] at other
      rw [promptLine, first, comment, strbegins]
      simp only [List.cons_append, List.isPrefixOf, Bool.and_true, beq_eq_false_iff_ne, ne_eq]
      exact fun same => other (congrArg some same.symm)
  · have ends : ∀ front : Bytes, ∀ text ∈ [ascii " char>", ascii ">"],
        (front ++ text).getLast? = some 62 := by
      intro front text among
      have last : ∀ text ∈ [ascii " char>", ascii ">"], text.getLast? = some 62 := by
        decide +kernel
      rw [List.getLast?_append, last text among]
      rfl
    rw [promptLine]
    split
    · simp only [← List.append_assoc]
      exact ends _ _ (by simp)
    · simp only [← List.append_assoc]
      exact ends _ _ (by simp)

end Start

def identity (config : Config) : Bytes :=
  ascii "; " ++ (ascii ">; " ++ config.targetcall ++ ascii " DE " ++ config.mycall ++
    ascii " (" ++ config.gridsquare ++ ascii ")").take 62

section Answer

variable {env : Env} {config : Config} {held : Bytes → Bool}

theorem sendMySid_writes :
    Goes env (sendMySid config) held held [lineWritten (sidLine config.packageVersion)] () := by
  have back : ascii "-B2FIHM$]\r" = ascii "-B2FIHM$]" ++ [carriageReturn] := by decide +kernel
  refine goes_command ?_
  rw [back, sidLine, List.append_assoc, List.append_assoc, List.append_assoc]

theorem goes_prompt {fuel : Nat} {line : Bytes} (prompt : Prompt line) :
    Goes env (handshake config (fuel + 1) (some (ascii "-B2FIHM$")) []) held held
      [lineRead line, lineWritten (identity config), lineWritten (sidLine config.packageVersion)]
      line := by
  have silent : sendSecureLoginResponse config [] = pure false := by
    rw [sendSecureLoginResponse]
    cases config.password <;> rfl
  have identifies : (strchr 73 (ascii "-B2FIHM$")).isSome = true := by decide +kernel
  have ending : ascii "\r" = [carriageReturn] := by decide +kernel
  rw [handshake, ← List.singleton_append]
  refine (goes_getline prompt.plain).bind ?_
  simp only
  rw [if_neg (by rw [strchr_isSome]; exact prompt.bracket),
    if_neg (by rw [prompt.comment]; decide), endsInPrompt_last prompt.last]
  refine Goes.quiet (goes_pure _) ?_
  simp only [decide_true, if_true, silent, identify, identifies]
  refine Goes.quiet (goes_pure _) ?_
  rw [← List.singleton_append]
  refine (goes_command ?_).bind ?_
  · rw [ending, identity]
  · simp only [Bool.false_eq_true, if_false]
    rw [← List.append_nil [lineWritten (sidLine _)]]
    exact sendMySid_writes.bind (goes_pure _)

end Answer

section Answered

variable {env : Env} {config peer : Config} {held : Bytes → Bool}

/-- The two sides of a call know each other's call signs. -/
structure InTouch (config peer : Config) : Prop where
  target : peer.targetcall = config.mycall
  mine : peer.mycall = config.targetcall
  call : CallSign config.mycall
  callOther : CallSign config.targetcall
  grid : ∀ char ∈ config.gridsquare, lineChar char = true ∧ char ≠ 91
  version : ∀ char ∈ config.packageVersion, lineChar char = true
  versionOther : ∀ char ∈ peer.packageVersion, lineChar char = true

theorem identity_chars (inTouch : InTouch config peer) :
    ∀ char ∈ identity config, lineChar char = true ∧ char ≠ 91 := by
  have texts : ∀ text ∈ [ascii "; ", ascii ">; ", ascii " DE ", ascii " (", ascii ")"],
      ∀ char ∈ text, lineChar char = true ∧ char ≠ 91 := by decide +kernel
  have sign : ∀ call, CallSign call → ∀ char ∈ call, lineChar char = true ∧ char ≠ 91 := by
    intro call ok char member
    exact ⟨ok.plain char member, fun same => ok.bracket (same ▸ member)⟩
  intro char member
  rw [identity, List.mem_append] at member
  rcases member with front | rest
  · exact texts _ (by simp) char front
  · have rest := List.mem_of_mem_take rest
    simp only [List.mem_append] at rest
    rcases rest with (((((text | target) | text) | mine) | text) | grid) | text
    · exact texts _ (by simp) char text
    · exact sign _ inTouch.callOther char target
    · exact texts _ (by simp) char text
    · exact sign _ inTouch.call char mine
    · exact texts _ (by simp) char text
    · exact inTouch.grid char grid
    · exact texts _ (by simp) char text

theorem identity_named (inTouch : InTouch config peer) :
    strstr (identity config)
      ((peer.mycall ++ ascii " DE " ++ peer.targetcall ++ ascii " ").take 62) = true := by
  have lengths : (ascii ">; ").length = 3 ∧ (ascii " DE ").length = 4 ∧ (ascii " ").length = 1 := by
    decide +kernel
  have space : ascii " (" = ascii " " ++ ascii "(" := by decide +kernel
  have short := inTouch.call.short
  have shortOther := inTouch.callOther.short
  rw [inTouch.mine, inTouch.target]
  have whole : (config.targetcall ++ ascii " DE " ++ config.mycall ++ ascii " ").take 62 =
      config.targetcall ++ ascii " DE " ++ config.mycall ++ ascii " " := by
    refine List.take_of_length_le ?_
    simp only [List.length_append, lengths]
    omega
  have front : (ascii ">; " ++ config.targetcall ++ ascii " DE " ++ config.mycall ++ ascii " (" ++
      config.gridsquare ++ ascii ")") = (ascii ">; " ++ (config.targetcall ++ ascii " DE " ++
        config.mycall ++ ascii " ")) ++ (ascii "(" ++ config.gridsquare ++ ascii ")") := by
    rw [space]
    simp only [List.append_assoc]
  obtain ⟨rest, cut⟩ : ∃ rest, (ascii ">; " ++ config.targetcall ++ ascii " DE " ++
      config.mycall ++ ascii " (" ++ config.gridsquare ++ ascii ")").take 62 =
        ascii ">; " ++
          ((config.targetcall ++ ascii " DE " ++ config.mycall ++ ascii " ") ++ rest) := by
    rw [front, List.take_append, List.take_of_length_le, List.append_assoc]
    · exact ⟨_, rfl⟩
    · simp only [List.length_append, lengths]
      omega
  rw [whole, strstr, identity, cut, List.any_eq_true]
  refine ⟨(config.targetcall ++ ascii " DE " ++ config.mycall ++ ascii " ") ++ rest, ?_, ?_⟩
  · rw [List.mem_tails, ← List.append_assoc]
    exact List.suffix_append _ _
  · rw [List.isPrefixOf_iff_prefix]
    exact List.prefix_append _ _

theorem goes_identified (inTouch : InTouch config peer) (count fuel : Nat) :
    Goes env (handshakeNoSecureLogin peer count (fuel + 2) none) held held
      [lineRead (identity config), lineRead (sidLine config.packageVersion)]
      (sidLine config.packageVersion) := by
  have chars := identity_chars inTouch
  have forward : ascii ";FW:" = [59, 70, 87, 58] := by decide +kernel
  have front : ascii "; " = [59, 32] := by decide +kernel
  have comment : ascii ";" = [59] := by decide +kernel
  have bracket : ascii "[UnixLINK-" = 91 :: ascii "UnixLINK-" := by decide +kernel
  have begins : strbegins (identity config) (ascii ";") = true := by
    rw [strbegins, identity, front, comment]
    simp [List.isPrefixOf]
  have other : strbegins (identity config) (ascii ";FW:") = false := by
    rw [strbegins, identity, front, forward]
    simp [List.isPrefixOf]
  have otherSid : strbegins (sidLine config.packageVersion) (ascii ";FW:") = false := by
    rw [strbegins, sidLine, bracket, forward]
    simp [List.isPrefixOf]
  rw [handshakeNoSecureLogin, ← List.singleton_append]
  refine (goes_getline fun char member => (chars char member).1).bind ?_
  simp only
  refine (goes_skipLines other _).quiet ?_
  rw [if_neg (by rw [strchr_isSome]; exact fun member => (chars 91 member).2 rfl), if_pos begins,
    if_pos (identity_named inTouch), handshakeNoSecureLogin,
    ← List.append_nil [lineRead (sidLine _)]]
  refine (goes_getline (sidLine_plain inTouch.version)).bind ?_
  simp only
  refine (goes_skipLines otherSid _).quiet ?_
  rw [if_pos (sidLine_bracket _), parseInboundsid_sid]
  exact Goes.quiet (goes_pure _) (goes_pure _)

end Answered

end PaclinkUnix
