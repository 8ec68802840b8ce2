import Cs352Proxy.Config
import Cs352Proxy.Base.Runs

/-!
# ConfigFile

Well-formed configuration files and what the loop makes of them.

A `Line` is a setting together with the spaces around its words; `Arg`, `Num` and `Line` carry the
proofs that make their text well-formed. `render` writes a file. The loop reads it back: its result
is the fold of `Setting.apply` over the lines.
-/

namespace Cs352Proxy

open Base

/-! ## Words -/

/-- A word of a line. -/
structure Arg where
  bytes : Buf
  nonempty : bytes ≠ []
  clean : ∀ b ∈ bytes, b ≠ space ∧ b ≠ newline ∧ b ≠ 0

/-- A decimal number that an `int` can hold. -/
structure Num where
  digits : List (Fin 10)
  nonempty : digits ≠ []
  small : digits.foldl (fun n d => 10 * n + d.val) 0 < 2 ^ 31

namespace Num

def value (n : Num) : Int := (n.digits.foldl (fun n d => 10 * n + d.val) 0 : Nat)

def digit (d : Fin 10) : U8 := BitVec.ofNat 8 (48 + d.val)

theorem digit_clean (d : Fin 10) : digit d ≠ space ∧ digit d ≠ newline ∧ digit d ≠ 0 := by
  revert d; decide

theorem digit_plain (d : Fin 10) :
    isWhite (digit d) = false ∧ digit d ≠ 45 ∧ digit d ≠ 43 ∧ isDigit (digit d) = true := by
  revert d; decide

theorem digit_value (d : Fin 10) : (digit d).toNat - 48 = d.val := by revert d; decide

def toArg (n : Num) : Arg where
  bytes := n.digits.map digit
  nonempty := fun h => n.nonempty (List.map_eq_nil_iff.mp h)
  clean := fun b hb => by
    obtain ⟨d, _, rfl⟩ := List.mem_map.mp hb
    exact digit_clean d

theorem decimal_toArg (n : Num) : (decimal n.toArg.bytes : Int) = n.value := by
  have hall : ∀ b ∈ n.digits.map digit, isDigit b := fun b hb => by
    obtain ⟨d, _, rfl⟩ := List.mem_map.mp hb
    exact (digit_plain d).2.2.2
  rw [decimal, toArg, List.takeWhile_eq_self_iff.mpr hall, List.foldl_map, value]
  simp only [digit_value]

theorem atoi_toArg (n : Num) : atoi n.toArg.bytes = n.value := by
  have hvalue := n.decimal_toArg
  have hsmall : n.value < 2 ^ 31 := by
    have h := n.small
    rw [value]
    omega
  have hpos : 0 ≤ n.value := Int.natCast_nonneg _
  have hlong : strtol n.toArg.bytes = n.value := by
    obtain ⟨d, ds, hds⟩ := List.exists_cons_of_ne_nil n.nonempty
    have hbytes : n.toArg.bytes = digit d :: ds.map digit := by
      rw [show n.toArg.bytes = n.digits.map digit from rfl, hds, List.map_cons]
    obtain ⟨hwhite, hminus, hplus, -⟩ := digit_plain d
    have hskip : n.toArg.bytes.dropWhile isWhite = digit d :: ds.map digit := by
      rw [hbytes, List.dropWhile_cons_of_neg (by simp [hwhite])]
    rw [strtol, hskip]
    simp only [hminus, hplus, if_false]
    rw [← hbytes, hvalue]
    omega
  rw [atoi, hlong]
  exact Int.bmod_eq_of_le (by omega) (by omega)

end Num

def Keyword.word (k : Keyword) : Arg where
  bytes := k.text
  nonempty := by cases k <;> decide
  clean := by cases k <;> decide +kernel

/-! ## Lines -/

inductive Setting where
  | listenPort (port : Num)
  | linkPeriod (period : Num)
  | linkTimeout (timeout : Num)
  | quitAfter (time : Num)
  | tapDevice (device : Arg)
  | globalSecretKey (key : Arg)
  | peer (host : Arg) (port : Num)
  | peerKey (mac key : Arg)

namespace Setting

def keyword : Setting → Keyword
  | listenPort _ => .listenPort
  | linkPeriod _ => .linkPeriod
  | linkTimeout _ => .linkTimeout
  | quitAfter _ => .quitAfter
  | tapDevice _ => .tapDevice
  | globalSecretKey _ => .globalSecretKey
  | peer _ _ => .peer
  | peerKey _ _ => .peerKey

def args : Setting → List Arg
  | listenPort n | linkPeriod n | linkTimeout n | quitAfter n => [n.toArg]
  | tapDevice a | globalSecretKey a => [a]
  | peer host port => [host, port.toArg]
  | peerKey mac key => [mac, key]

/-- What a line with this setting leaves in the configuration. -/
def apply (cfg : Config) : Setting → Config
  | listenPort n =>
    { cfg with listenPort := n.value, localPort := n.value, portno := BitVec.ofInt 16 n.value }
  | linkPeriod n => { cfg with linkPeriod := n.value }
  | linkTimeout n => { cfg with linkTimeout := n.value }
  | quitAfter n => { cfg with quitAfter := n.value }
  | tapDevice a => { cfg with tapDevice := some a.bytes }
  | globalSecretKey _ => { cfg with globalSecretKey := some Keyword.globalSecretKey.text }
  | peer host port =>
    { cfg with
      addr := some host.bytes
      remotePort := port.value
      head := cfg.head ++ [{ port := port.value, IP := host.bytes }] }
  | peerKey mac key => { cfg with macaddr := some mac.bytes, peerKey := some key.bytes }

def listenPort? : Setting → Option Int
  | listenPort n => some n.value
  | _ => none

def linkPeriod? : Setting → Option Int
  | linkPeriod n => some n.value
  | _ => none

def linkTimeout? : Setting → Option Int
  | linkTimeout n => some n.value
  | _ => none

def tapDevice? : Setting → Option Buf
  | tapDevice a => some a.bytes
  | _ => none

def peer? : Setting → Option Peer
  | peer host port => some { port := port.value, IP := host.bytes }
  | _ => none

end Setting

def spaces (n : Nat) : Buf := List.replicate n space

/-- The words from the `i`-th on, each behind at least one space. -/
def spread (gap : Nat → Nat) : Nat → List Arg → Buf
  | _, [] => []
  | i, arg :: args => spaces (gap i + 1) ++ (arg.bytes ++ spread gap (i + 1) args)

def lineText (setting : Setting) (lead : Nat) (gap : Nat → Nat) (trail : Nat) : Buf :=
  spaces lead ++ (setting.keyword.text ++ (spread gap 0 setting.args ++ spaces trail))

/-- A well-formed line without its newline. -/
structure Line where
  setting : Setting
  lead : Nat
  gap : Nat → Nat
  trail : Nat
  short : (lineText setting lead gap trail).length < lineMax - 1

def Line.text (line : Line) : Buf := lineText line.setting line.lead line.gap line.trail

/-- A file with these lines. -/
def render (lastNewline : Bool) : List Line → Buf
  | [] => []
  | [line] => line.text ++ if lastNewline then [newline] else []
  | line :: lines => line.text ++ newline :: render lastNewline lines

/-! ## Reading a line -/

theorem spaces_break {n : Nat} : ∀ b ∈ spaces n, isBreak b := fun b hb => by
  rw [(List.mem_replicate.mp hb).2]; rfl

theorem spaces_space {n : Nat} : ∀ b ∈ spaces n, isSpace b := fun b hb => by
  rw [(List.mem_replicate.mp hb).2]; rfl

theorem Arg.not_break (arg : Arg) : ∀ b ∈ arg.bytes, isBreak b = false := fun b hb => by
  obtain ⟨hspace, hnewline, -⟩ := arg.clean b hb
  simp [isBreak, hspace, hnewline]

theorem Arg.not_space (arg : Arg) : ∀ b ∈ arg.bytes, isSpace b = false := fun b hb => by
  simp [isSpace, (arg.clean b hb).1]

/-- The arguments come back, whatever delimiters are behind them. -/
theorem tokens_spread (gap : Nat → Nat) (i : Nat) (args : List Arg) {tail : Buf}
    (htail : ∀ b ∈ tail, isBreak b) :
    tokens isBreak (spread gap i args ++ tail) = args.map Arg.bytes := by
  induction args generalizing i with
  | nil =>
    have h := tokens_append_delims htail []
    rwa [List.append_nil, tokens_nil] at h
  | cons arg args ih =>
    have hrest : ∀ b ∈ (spread gap (i + 1) args ++ tail).head?, isBreak b := by
      cases args with
      | nil => exact fun b hb => htail b (List.mem_of_mem_head? hb)
      | cons next args =>
        intro b hb
        simp only [spread, spaces, List.replicate_succ, List.cons_append, List.head?_cons,
          Option.mem_def, Option.some.injEq] at hb
        rw [← hb]; rfl
    rw [spread, List.append_assoc, List.append_assoc, tokens_append_delims spaces_break,
      tokens_token_append arg.not_break arg.nonempty hrest, ih, List.map_cons]

theorem Setting.args_ne_nil (setting : Setting) : setting.args ≠ [] := by
  cases setting <;> exact List.cons_ne_nil _ _

/-- The first token is the keyword; the tokens behind it are the arguments. -/
theorem lineText_tokens (setting : Setting) (lead : Nat) (gap : Nat → Nat) {tail : Buf}
    (htail : ∀ b ∈ tail, isBreak b) :
    ∃ rest, strtok isSpace
        (spaces lead ++ (setting.keyword.text ++ (spread gap 0 setting.args ++ tail))) =
        some (setting.keyword.text, rest) ∧
      tokens isBreak rest = setting.args.map Arg.bytes := by
  have htokens := tokens_spread gap 0 setting.args htail
  obtain ⟨arg, args, hargs⟩ := List.exists_cons_of_ne_nil setting.args_ne_nil
  have hspace : spread gap 0 setting.args ++ tail =
      space :: (spaces (gap 0) ++ (arg.bytes ++ spread gap 1 args) ++ tail) := by
    rw [hargs]; rfl
  rw [hspace, tokens_cons_delim rfl] at htokens
  rw [hspace]
  exact ⟨_, strtok_token spaces_space setting.keyword.word.not_space setting.keyword.word.nonempty
    rfl _, htokens⟩

theorem configLine_setting {linep rest : Buf} (setting : Setting) (cfg : Config)
    (hkeyword : strtok isSpace linep = some (setting.keyword.text, rest))
    (hargs : tokens isBreak rest = setting.args.map Arg.bytes) :
    configLine linep cfg = .ok (setting.apply cfg) := by
  rw [configLine, hkeyword]
  cases setting with
  | peer host port =>
    simp [Keyword.parse_text, Setting.keyword, Setting.apply, takeTwo_eq, hargs, Setting.args,
      Num.atoi_toArg]
  | peerKey mac key =>
    simp [Keyword.parse_text, Setting.keyword, Setting.apply, takeTwo_eq, hargs, Setting.args]
  | globalSecretKey key => simp [Keyword.parse_text, Setting.keyword, Setting.apply]
  | listenPort n | linkPeriod n | linkTimeout n | quitAfter n | tapDevice n =>
    simp [Keyword.parse_text, Setting.keyword, Setting.apply, takeOne_eq, hargs, Setting.args,
      Num.atoi_toArg]

/-! ## Reading the file -/

theorem cstr_of_no_zero {s : Buf} (h : ∀ b ∈ s, b ≠ 0) : cstr s = s := by
  induction s with
  | nil => rfl
  | cons b bs ih =>
    rw [cstr_cons_of_ne bs (h b List.mem_cons_self), ih fun c hc => h c (List.mem_cons_of_mem b hc)]

theorem spread_clean (gap : Nat → Nat) (i : Nat) (args : List Arg) :
    ∀ b ∈ spread gap i args, b ≠ newline ∧ b ≠ 0 := by
  induction args generalizing i with
  | nil => exact fun b hb => absurd hb (List.not_mem_nil)
  | cons arg args ih =>
    intro b hb
    rw [spread, List.mem_append, List.mem_append] at hb
    rcases hb with hb | hb | hb
    · rw [(List.mem_replicate.mp hb).2]; decide
    · exact (arg.clean b hb).2
    · exact ih (i + 1) b hb

theorem Line.clean (line : Line) : ∀ b ∈ line.text, b ≠ newline ∧ b ≠ 0 := by
  intro b hb
  rw [text, lineText, List.mem_append, List.mem_append, List.mem_append] at hb
  rcases hb with hb | hb | hb | hb
  · rw [(List.mem_replicate.mp hb).2]; decide
  · exact (line.setting.keyword.word.clean b hb).2
  · exact spread_clean _ _ _ b hb
  · rw [(List.mem_replicate.mp hb).2]; decide

theorem configLine_line (line : Line) {eol : Buf} (heol : ∀ b ∈ eol, b = newline) (cfg : Config) :
    configLine (cstr (line.text ++ eol)) cfg = .ok (line.setting.apply cfg) := by
  have hzero : ∀ b ∈ line.text ++ eol, b ≠ 0 := fun b hb => by
    rcases List.mem_append.mp hb with hb | hb
    · exact (line.clean b hb).2
    · rw [heol b hb]; decide
  have htail : ∀ b ∈ spaces line.trail ++ eol, isBreak b := fun b hb => by
    rcases List.mem_append.mp hb with hb | hb
    · exact spaces_break b hb
    · rw [heol b hb]; rfl
  obtain ⟨rest, hkeyword, hargs⟩ := lineText_tokens line.setting line.lead line.gap htail
  rw [cstr_of_no_zero hzero]
  simp only [Line.text, lineText, List.append_assoc]
  exact configLine_setting line.setting cfg hkeyword hargs

/-- `fgets` takes the first line of a file off it. -/
theorem linesRead_render (lastNewline : Bool) (line : Line) (lines : List Line) :
    ∃ eol, (∀ b ∈ eol, b = newline) ∧
      linesRead (render lastNewline (line :: lines)) =
        (line.text ++ eol) :: linesRead (render lastNewline lines) := by
  have hnewline : newline ∉ line.text := fun h => (line.clean newline h).1 rfl
  have hshort : line.text.length < lineMax - 1 := line.short
  have hne : ∀ tail, line.text ++ tail ≠ [] := fun tail h => by
    have htext := List.append_eq_nil_iff.mp (List.append_eq_nil_iff.mp h).1
    exact line.setting.keyword.word.nonempty (List.append_eq_nil_iff.mp htext.2).1
  have hended : ∀ rest, linesRead (line.text ++ newline :: rest) =
      (line.text ++ [newline]) :: linesRead rest := fun rest => by
    rw [linesRead, linesOf_of_ne_nil (by decide) (hne _), takeLine_line hnewline hshort rest]
    rfl
  cases lines with
  | cons next lines => exact ⟨[newline], by simp, hended _⟩
  | nil =>
    cases lastNewline with
    | true => exact ⟨[newline], by simp, hended []⟩
    | false =>
      refine ⟨[], by simp, ?_⟩
      rw [show render false [line] = line.text ++ [] from rfl, linesRead,
        linesOf_of_ne_nil (by decide) (hne _), List.append_nil, takeLine_last hnewline hshort.le]
      rfl

theorem readConfig_render (lastNewline : Bool) (lines : List Line) (cfg : Config) :
    readConfig (render lastNewline lines) cfg =
      .ok ((lines.map Line.setting).foldl Setting.apply cfg) := by
  induction lines generalizing cfg with
  | nil => rfl
  | cons line lines ih =>
    obtain ⟨eol, heol, hread⟩ := linesRead_render lastNewline line lines
    rw [readConfig, hread, configLoop_cons (configLine_line line heol cfg)]
    exact ih (line.setting.apply cfg)

/-! ## What the settings leave behind -/

/-- What the last of the settings that say something about `part` says. -/
def lastOf {β : Type} (part : Setting → Option β) (lines : List Line) : Option β :=
  ((lines.map Line.setting).filterMap part).getLast?

theorem foldl_apply_lastOf {β : Type} (field : Config → β) (part : Setting → Option β)
    (hstep : ∀ cfg setting, field (Setting.apply cfg setting) = (part setting).getD (field cfg))
    (lines : List Line) (cfg : Config) :
    field ((lines.map Line.setting).foldl Setting.apply cfg) =
      (lastOf part lines).getD (field cfg) := foldl_last hstep _ cfg

theorem lastOf_map {β γ : Type} (f : β → γ) (part : Setting → Option β) (lines : List Line) :
    lastOf (fun setting => (part setting).map f) lines = (lastOf part lines).map f := by
  rw [lastOf, lastOf, ← List.map_filterMap, List.getLast?_map]

/-- The loop accepts every well-formed file; the last line for a setting decides, and the peers are
kept in the order of their lines. -/
theorem config_file_accepted (lines : List Line) (lastNewline : Bool) (garbage : Config) :
    ∃ cfg, readConfig (render lastNewline lines) (Config.start garbage) = .ok cfg ∧
      cfg.localPort = (lastOf Setting.listenPort? lines).getD 0 ∧
      cfg.linkPeriod = (lastOf Setting.linkPeriod? lines).getD 0 ∧
      cfg.linkTimeout = (lastOf Setting.linkTimeout? lines).getD 0 ∧
      cfg.tapDevice = (lastOf Setting.tapDevice? lines).or garbage.tapDevice ∧
      (∀ port, lastOf Setting.listenPort? lines = some port →
        (cfg.portno.toNat : Int) = port % 65536) ∧
      cfg.head = lines.filterMap fun line => line.setting.peer? := by
  refine ⟨_, readConfig_render lastNewline lines _, ?_, ?_, ?_, ?_, ?_, ?_⟩
  · exact foldl_apply_lastOf Config.localPort Setting.listenPort? (fun _ s => by cases s <;> rfl)
      lines _
  · exact foldl_apply_lastOf Config.linkPeriod Setting.linkPeriod? (fun _ s => by cases s <;> rfl)
      lines _
  · exact foldl_apply_lastOf Config.linkTimeout Setting.linkTimeout? (fun _ s => by cases s <;> rfl)
      lines _
  · have h := foldl_apply_lastOf Config.tapDevice (fun s => s.tapDevice?.map some)
      (fun _ s => by cases s <;> rfl) lines
      (Config.start garbage)
    rw [h, lastOf_map]
    cases lastOf Setting.tapDevice? lines <;> rfl
  · intro port hport
    have h := foldl_apply_lastOf Config.portno (fun s => s.listenPort?.map (BitVec.ofInt 16))
      (fun _ s => by cases s <;> rfl) lines
      (Config.start garbage)
    rw [h, lastOf_map, hport, Option.map_some, Option.getD_some, BitVec.toNat_ofInt]
    omega
  · have hstep : ∀ cfg setting,
        (Setting.apply cfg setting).head = cfg.head ++ setting.peer?.toList := fun cfg setting => by
      cases setting <;> simp [Setting.apply, Setting.peer?]
    rw [foldl_log hstep, List.filterMap_map]
    rfl

end Cs352Proxy
