import Cs352Proxy.Config

/-!
# Recorded

Which files the configuration loop either rejects or records faithfully.

A line is unknown when its first token is no keyword, and supplied when its keyword has the tokens
its branch takes. The loop rejects a file at its first unknown line, runs into a `NULL` token at the
first line that is neither, and reads the file to its end when every line is supplied
(`configLoop_cases`). The branch for `globalSecretKey` takes no token: it records the keyword.
-/

namespace Cs352Proxy

open Base

/-- How many tokens behind the keyword its branch takes. -/
def Keyword.taken : Keyword → Nat
  | globalSecretKey => 0
  | peer | peerKey => 2
  | listenPort | linkPeriod | linkTimeout | quitAfter | tapDevice => 1

/-- The values that `args` give the keyword are in the configuration. -/
def Keyword.Records (cfg : Config) : Keyword → List Buf → Prop
  | listenPort, port :: _ =>
    cfg.listenPort = atoi port ∧ cfg.localPort = atoi port ∧ cfg.portno = BitVec.ofInt 16 (atoi port)
  | linkPeriod, period :: _ => cfg.linkPeriod = atoi period
  | linkTimeout, timeout :: _ => cfg.linkTimeout = atoi timeout
  | peer, host :: port :: _ =>
    cfg.addr = some host ∧ cfg.remotePort = atoi port ∧
      cfg.head.getLast? = some { port := atoi port, IP := host }
  | quitAfter, time :: _ => cfg.quitAfter = atoi time
  | tapDevice, device :: _ => cfg.tapDevice = some device
  | globalSecretKey, key :: _ => cfg.globalSecretKey = some key
  | peerKey, mac :: key :: _ => cfg.macaddr = some mac ∧ cfg.peerKey = some key
  | _, _ => False

/-- The keyword of a line, `none` for another word, and the arguments behind it. -/
def keywordArgs (linep : Buf) : Option (Option Keyword × List Buf) :=
  (strtok isSpace (cstr linep)).map fun r => (Keyword.parse r.1, tokens isBreak r.2)

def Unknown (linep : Buf) : Prop := ∃ args, keywordArgs linep = some (none, args)

def Supplied (linep : Buf) : Prop :=
  ∃ k args, keywordArgs linep = some (some k, args) ∧ k.taken ≤ args.length

/-- The line's own arguments are what the configuration holds for its keyword. -/
def Recorded (linep : Buf) (cfg : Config) : Prop :=
  ∃ k args, keywordArgs linep = some (some k, args) ∧ k.Records cfg args

/-- A `globalSecretKey` line whose key is the word `globalSecretKey`. -/
def NamesItself (linep : Buf) : Prop :=
  ∀ args, keywordArgs linep = some (some .globalSecretKey, args) →
    args.head? = some Keyword.globalSecretKey.text

/-- Every line before the first unknown one is supplied. -/
def SuppliedUntilUnknown : List Buf → Prop
  | [] => True
  | linep :: lines => Unknown linep ∨ Supplied linep ∧ SuppliedUntilUnknown lines

/-- No `NULL` token is used, and the file is rejected or every line read is recorded. -/
structure RecordedOrRejected (file : Buf) (cfg : Config) : Prop where
  noNull : readConfig file cfg ≠ .error .nullToken
  recorded : readConfig file cfg = .error .rejected ∨
    ∀ before linep after cfg₁ cfg₂, linesRead file = before ++ linep :: after →
      configLoop before cfg = .ok cfg₁ → configLine (cstr linep) cfg₁ = .ok cfg₂ →
        Recorded linep cfg₂

theorem Unknown.not_supplied {linep : Buf} (h : Unknown linep) : ¬Supplied linep := by
  rintro ⟨k, args, hk, -⟩
  obtain ⟨args', hnone⟩ := h
  rw [hnone] at hk
  cases hk

/-! ## One line -/

theorem configLine_keyword {linep : Buf} {k : Keyword} {args : List Buf} (cfg : Config)
    (hk : keywordArgs linep = some (some k, args)) :
    (args.length < k.taken ∧ configLine (cstr linep) cfg = .error .nullToken) ∨
      k.taken ≤ args.length ∧ ∃ cfg', configLine (cstr linep) cfg = .ok cfg' ∧
        (k.Records cfg' args ↔
          (k = .globalSecretKey → args.head? = some Keyword.globalSecretKey.text)) := by
  rw [keywordArgs, Option.map_eq_some_iff] at hk
  obtain ⟨⟨pch, rest⟩, htok, hpair⟩ := hk
  obtain ⟨hparse, rfl⟩ := Prod.mk.inj hpair
  have hpch := Keyword.text_of_parse hparse
  rw [configLine, htok]
  simp only at hparse
  simp only [hparse]
  cases k with
  | globalSecretKey =>
    refine .inr ⟨Nat.zero_le _, _, rfl, ?_⟩
    simp only at hpch
    cases tokens isBreak rest <;> simp [Keyword.Records, hpch, eq_comm]
  | peer | peerKey =>
    simp only [takeTwo_eq]
    rcases tokens isBreak rest with _ | ⟨a, _ | ⟨b, as⟩⟩ <;> simp [Keyword.taken, Keyword.Records]
  | listenPort | linkPeriod | linkTimeout | quitAfter | tapDevice =>
    simp only [takeOne_eq]
    cases tokens isBreak rest <;> simp [Keyword.taken, Keyword.Records]

theorem configLine_cases (linep : Buf) (cfg : Config) :
    (Unknown linep ∧ configLine (cstr linep) cfg = .error .rejected) ∨
      (¬Unknown linep ∧ ¬Supplied linep ∧ configLine (cstr linep) cfg = .error .nullToken) ∨
      Supplied linep ∧ ∃ cfg', configLine (cstr linep) cfg = .ok cfg' ∧
        (Recorded linep cfg' ↔ NamesItself linep) := by
  cases hk : keywordArgs linep with
  | none =>
    refine .inr (.inl ⟨?_, ?_, ?_⟩)
    · rintro ⟨args, h⟩; rw [hk] at h; cases h
    · rintro ⟨k, args, h, -⟩; rw [hk] at h; cases h
    · rw [configLine, Option.map_eq_none_iff.mp hk]
  | some r =>
    obtain ⟨_ | k, args⟩ := r
    · refine .inl ⟨⟨args, hk⟩, ?_⟩
      rw [keywordArgs, Option.map_eq_some_iff] at hk
      obtain ⟨⟨pch, rest⟩, htok, hpair⟩ := hk
      have hparse : Keyword.parse pch = none := (Prod.mk.inj hpair).1
      rw [configLine, htok]
      simp only [hparse]
    · have hsupplied : Supplied linep ↔ k.taken ≤ args.length := by simp [Supplied, hk]
      rcases configLine_keyword cfg hk with ⟨hlt, hnull⟩ | ⟨hle, cfg', hok, hrecords⟩
      · refine .inr (.inl ⟨?_, ?_, hnull⟩)
        · rintro ⟨args, h⟩; rw [hk] at h; cases h
        · rw [hsupplied]; omega
      · refine .inr (.inr ⟨hsupplied.mpr hle, cfg', hok, ?_⟩)
        have hrecorded : Recorded linep cfg' ↔ k.Records cfg' args := by simp [Recorded, hk]
        rw [hrecorded, hrecords]
        simp only [NamesItself, hk, Option.some.injEq, Prod.mk.injEq]
        exact ⟨fun h args' ⟨hkey, hargs⟩ => hargs ▸ h hkey, fun h hkey => h args ⟨hkey, rfl⟩⟩

/-! ## The whole file -/

theorem configLoop_supplied {lines : List Buf} (h : ∀ linep ∈ lines, Supplied linep) (cfg : Config) :
    ∃ cfg', configLoop lines cfg = .ok cfg' := by
  induction lines generalizing cfg with
  | nil => exact ⟨cfg, rfl⟩
  | cons linep lines ih =>
    have hs := h linep List.mem_cons_self
    rcases configLine_cases linep cfg with ⟨hu, -⟩ | ⟨-, hn, -⟩ | ⟨-, cfg', hok, -⟩
    · exact absurd hs hu.not_supplied
    · exact absurd hs hn
    · rw [configLoop_cons hok]
      exact ih (fun l hl => h l (List.mem_cons_of_mem _ hl)) cfg'

theorem configLoop_cases (lines : List Buf) (cfg : Config) :
    (SuppliedUntilUnknown lines ∧ (∃ linep ∈ lines, Unknown linep) ∧
        configLoop lines cfg = .error .rejected) ∨
      (¬SuppliedUntilUnknown lines ∧ configLoop lines cfg = .error .nullToken) ∨
      SuppliedUntilUnknown lines ∧ (∀ linep ∈ lines, Supplied linep) ∧
        ∃ cfg', configLoop lines cfg = .ok cfg' := by
  induction lines generalizing cfg with
  | nil => exact .inr (.inr ⟨trivial, by simp, cfg, rfl⟩)
  | cons linep lines ih =>
    rcases configLine_cases linep cfg with ⟨hu, hstop⟩ | ⟨hu, hs, hstop⟩ | ⟨hs, cfg', hok, -⟩
    · exact .inl ⟨.inl hu, ⟨linep, List.mem_cons_self, hu⟩, by simp only [configLoop, hstop]⟩
    · exact .inr (.inl ⟨by simp [SuppliedUntilUnknown, hu, hs], by simp only [configLoop, hstop]⟩)
    · have hu : ¬Unknown linep := fun hu => hu.not_supplied hs
      rw [configLoop_cons hok]
      rcases ih cfg' with ⟨hall, ⟨l, hl, hul⟩, hstop⟩ | ⟨hnot, hstop⟩ | ⟨hall, hsup, hdone⟩
      · exact .inl ⟨.inr ⟨hs, hall⟩, ⟨l, List.mem_cons_of_mem _ hl, hul⟩, hstop⟩
      · exact .inr (.inl ⟨by simp [SuppliedUntilUnknown, hu, hnot], hstop⟩)
      · exact .inr (.inr ⟨.inr ⟨hs, hall⟩, List.forall_mem_cons.mpr ⟨hs, hsup⟩, hdone⟩)

/-- The lines up to the first unknown one must have the tokens their branches take. The loop then
rejects the file, or it records every line but the `globalSecretKey` lines with a key of their own. -/
theorem recordedOrRejected_iff (file : Buf) (garbage : Config) :
    RecordedOrRejected file (Config.start garbage) ↔
      SuppliedUntilUnknown (linesRead file) ∧
        ((∃ linep ∈ linesRead file, Unknown linep) ∨
          ∀ linep ∈ linesRead file, NamesItself linep) := by
  rcases configLoop_cases (linesRead file) (Config.start garbage) with
    ⟨hall, hunknown, hstop⟩ | ⟨hnot, hstop⟩ | ⟨hall, hsupplied, cfg, hdone⟩
  · refine iff_of_true ⟨?_, .inl hstop⟩ ⟨hall, .inl hunknown⟩
    rw [readConfig, hstop]
    decide
  · exact iff_of_false (fun h => h.noNull hstop) fun h => hnot h.1
  · have hknown : ¬∃ linep ∈ linesRead file, Unknown linep := by
      rintro ⟨linep, hmem, hu⟩
      exact hu.not_supplied (hsupplied linep hmem)
    have hread : readConfig file (Config.start garbage) = .ok cfg := hdone
    constructor
    · intro h
      have hrecorded := h.recorded.resolve_left (by rw [hread]; simp)
      refine ⟨hall, .inr fun linep hmem => ?_⟩
      obtain ⟨before, after, hsplit⟩ := List.append_of_mem hmem
      have hbefore : ∀ l ∈ before, Supplied l := fun l hl =>
        hsupplied l (by rw [hsplit]; exact List.mem_append_left _ hl)
      obtain ⟨cfg₁, hloop⟩ := configLoop_supplied hbefore (Config.start garbage)
      rcases configLine_cases linep cfg₁ with ⟨hu, -⟩ | ⟨-, hs, -⟩ | ⟨-, cfg₂, hok, hiff⟩
      · exact absurd ⟨linep, hmem, hu⟩ hknown
      · exact absurd (hsupplied linep hmem) hs
      · exact hiff.mp (hrecorded before linep after cfg₁ cfg₂ hsplit hloop hok)
    · rintro ⟨-, hnames⟩
      refine ⟨by rw [hread]; simp, .inr ?_⟩
      intro before linep after cfg₁ cfg₂ hsplit _ hok
      have hmem : linep ∈ linesRead file := by rw [hsplit]; simp
      rcases configLine_cases linep cfg₁ with ⟨-, hstop⟩ | ⟨-, -, hstop⟩ | ⟨-, cfg', hok', hiff⟩
      · rw [hstop] at hok; cases hok
      · rw [hstop] at hok; cases hok
      · rw [hok'] at hok
        cases hok
        exact hiff.mpr (hnames.resolve_left hknown linep hmem)

/-! ## Two short files -/

/-- A configuration with nothing in it. -/
def Config.blank : Config :=
  { linkPeriod := 0, linkTimeout := 0, localPort := 0, portno := 0, listenPort := 0, remotePort := 0,
    quitAfter := 0, addr := none, tapDevice := none, globalSecretKey := none, macaddr := none,
    peerKey := none, head := [] }

/-- A `globalSecretKey` line as in the sample configuration, and a `listenPort` line without a port. -/
theorem secret_and_missing_port_are_lost :
    ¬RecordedOrRejected (ascii "globalSecretKey Secret\n") (Config.start Config.blank) ∧
      ¬RecordedOrRejected (ascii "listenPort \n") (Config.start Config.blank) := by
  refine ⟨fun h => ?_, fun h => h.noNull (by decide +kernel)⟩
  have hread : readConfig (ascii "globalSecretKey Secret\n") (Config.start Config.blank) ≠
      .error .rejected := by decide +kernel
  have hlines : linesRead (ascii "globalSecretKey Secret\n") =
      [] ++ ascii "globalSecretKey Secret\n" :: [] := by decide +kernel
  have hline : configLine (cstr (ascii "globalSecretKey Secret\n")) (Config.start Config.blank) =
      .ok { Config.blank with globalSecretKey := some (ascii "globalSecretKey") } := by
    decide +kernel
  have hargs : keywordArgs (ascii "globalSecretKey Secret\n") =
      some (some .globalSecretKey, [ascii "Secret"]) := by decide +kernel
  obtain ⟨k, args, hk, hrecords⟩ := h.recorded.resolve_left hread _ _ _ _ _ hlines rfl hline
  rw [hargs] at hk
  cases hk
  exact absurd hrecords (by simp only [Keyword.Records]; decide +kernel)

end Cs352Proxy
