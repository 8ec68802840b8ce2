import Mathlib.Tactic.Common
import Mathlib.Data.List.TakeWhile

/-!
# Base.Scan

Reading text the way the C library does: `fgets` cuts a file into lines of bounded length and
`strtok` takes one token at a time off a string. `linesOf` is what successive calls of `fgets`
return, and `tokens` is what the string holds between its delimiters; `tokens_eq_strtok` says that
successive calls of `strtok` with one set of delimiters return the tokens in order.
-/

namespace Base

variable {α : Type}

/-! ## Lines -/

section Lines

variable [DecidableEq α]

/-- Up to `n` cells, the first `stop` being the last one, and what is behind them. -/
def takeLine (stop : α) : Nat → List α → List α × List α
  | 0, file => ([], file)
  | _ + 1, [] => ([], [])
  | n + 1, b :: bs =>
    if b = stop then ([b], bs)
    else (b :: (takeLine stop n bs).1, (takeLine stop n bs).2)

/-- The next line for a buffer of `size` cells, one of which is for the terminator. -/
def fgets (stop : α) (size : Nat) (file : List α) : Option (List α × List α) :=
  if file = [] then none else some (takeLine stop (size - 1) file)

/-- The results of up to `n` calls of `fgets`. -/
def fgetsUpTo (stop : α) (size : Nat) : Nat → List α → List (List α)
  | 0, _ => []
  | n + 1, file =>
    match fgets stop size file with
    | none => []
    | some (line, rest) => line :: fgetsUpTo stop size n rest

/-- Every call returns at least one cell, so the file's length is enough calls. -/
def linesOf (stop : α) (size : Nat) (file : List α) : List (List α) :=
  fgetsUpTo stop size file.length file

theorem takeLine_append (stop : α) (n : Nat) (file : List α) :
    (takeLine stop n file).1 ++ (takeLine stop n file).2 = file := by
  induction n generalizing file with
  | zero => rfl
  | succ n ih =>
    cases file with
    | nil => rfl
    | cons b bs =>
      simp only [takeLine]
      split
      · rfl
      · rw [List.cons_append, ih]

theorem takeLine_rest_lt (stop : α) {n : Nat} {file : List α} (hn : n ≠ 0) (hfile : file ≠ []) :
    (takeLine stop n file).2.length < file.length := by
  obtain ⟨n, rfl⟩ := Nat.exists_eq_succ_of_ne_zero hn
  obtain ⟨b, bs, rfl⟩ := List.exists_cons_of_ne_nil hfile
  have happ := congrArg List.length (takeLine_append stop n bs)
  rw [List.length_append] at happ
  simp only [takeLine]
  split
  · simp
  · simp only [List.length_cons]; omega

theorem takeLine_line {stop : α} {n : Nat} {line : List α} (hline : stop ∉ line)
    (hfit : line.length < n) (rest : List α) :
    takeLine stop n (line ++ stop :: rest) = (line ++ [stop], rest) := by
  induction line generalizing n with
  | nil =>
    obtain ⟨n, rfl⟩ := Nat.exists_eq_succ_of_ne_zero (Nat.ne_of_gt hfit)
    simp [takeLine]
  | cons b bs ih =>
    obtain ⟨n, rfl⟩ := Nat.exists_eq_succ_of_ne_zero (Nat.ne_of_gt (Nat.zero_lt_of_lt hfit))
    have hb : b ≠ stop := fun h => hline (h ▸ List.mem_cons_self)
    have hrec := ih (fun h => hline (List.mem_cons_of_mem _ h)) (Nat.lt_of_succ_lt_succ hfit)
    simp [takeLine, hb, hrec]

theorem takeLine_last {stop : α} {n : Nat} {line : List α} (hline : stop ∉ line)
    (hfit : line.length ≤ n) : takeLine stop n line = (line, []) := by
  induction line generalizing n with
  | nil => cases n <;> rfl
  | cons b bs ih =>
    obtain ⟨n, rfl⟩ := Nat.exists_eq_succ_of_ne_zero (Nat.ne_of_gt (Nat.zero_lt_of_lt hfit))
    have hb : b ≠ stop := fun h => hline (h ▸ List.mem_cons_self)
    have hrec := ih (fun h => hline (List.mem_cons_of_mem _ h)) (Nat.le_of_succ_le_succ hfit)
    simp [takeLine, hb, hrec]

variable {stop : α} {size : Nat}

theorem fgetsUpTo_eq (hsize : 2 ≤ size) {n : Nat} {file : List α} (hn : file.length ≤ n) :
    fgetsUpTo stop size n file = linesOf stop size file := by
  induction n using Nat.strongRecOn generalizing file with
  | ind n ih =>
    by_cases hfile : file = []
    · subst hfile; cases n <;> rfl
    · have hlt := takeLine_rest_lt stop (n := size - 1) (by omega) hfile
      have hpos := List.length_pos_iff.mpr hfile
      have hrec : ∀ m < n, (takeLine stop (size - 1) file).2.length ≤ m →
          fgetsUpTo stop size m (takeLine stop (size - 1) file).2 =
            linesOf stop size (takeLine stop (size - 1) file).2 := fun m hm hlen => ih m hm hlen
      obtain ⟨n, rfl⟩ := Nat.exists_eq_succ_of_ne_zero (show n ≠ 0 by omega)
      obtain ⟨m, hm⟩ := Nat.exists_eq_succ_of_ne_zero (show file.length ≠ 0 by omega)
      rw [linesOf, hm, fgetsUpTo, fgetsUpTo, fgets, if_neg hfile]
      have hleft := hrec n (by omega) (by omega)
      have hright := hrec m (by omega) (by omega)
      exact congrArg (List.cons _) (hleft.trans hright.symm)

theorem linesOf_of_ne_nil (hsize : 2 ≤ size) {file : List α} (hfile : file ≠ []) :
    linesOf stop size file =
      (takeLine stop (size - 1) file).1 ::
        linesOf stop size (takeLine stop (size - 1) file).2 := by
  have hlt := takeLine_rest_lt stop (n := size - 1) (by omega) hfile
  obtain ⟨m, hm⟩ := Nat.exists_eq_succ_of_ne_zero (show file.length ≠ 0 by omega)
  rw [linesOf, hm, fgetsUpTo, fgets, if_neg hfile]
  exact congrArg (List.cons _) (fgetsUpTo_eq hsize (by omega))

/-- No cell of the file is lost: fuel never ends the reading. -/
theorem flatten_linesOf (hsize : 2 ≤ size) (file : List α) :
    (linesOf stop size file).flatten = file := by
  induction h : file.length using Nat.strongRecOn generalizing file with
  | ind n ih =>
    by_cases hfile : file = []
    · subst hfile; rfl
    · have hlt := takeLine_rest_lt stop (n := size - 1) (by omega) hfile
      rw [linesOf_of_ne_nil hsize hfile, List.flatten_cons, ih _ (h ▸ hlt) _ rfl, takeLine_append]

end Lines

/-! ## Tokens -/

variable {delim : α → Bool}

/-- The first token of `s` and what is behind the delimiter that ended it. -/
def strtok (delim : α → Bool) (s : List α) : Option (List α × List α) :=
  match s.dropWhile delim with
  | [] => none
  | b :: bs => some ((b :: bs).takeWhile fun c => !delim c, ((b :: bs).dropWhile fun c => !delim c).tail)

/-- The longest parts of `s` without a delimiter. -/
def tokens (delim : α → Bool) (s : List α) : List (List α) :=
  (s.splitOnP delim).filter fun token => !token.isEmpty

theorem tokens_nil : tokens delim [] = [] := rfl

theorem tokens_cons_delim {b : α} (hb : delim b) (s : List α) : tokens delim (b :: s) = tokens delim s := by
  simp [tokens, List.splitOnP_cons_eq_if_modifyHead, hb]

theorem tokens_append_delims {gap : List α} (hgap : ∀ b ∈ gap, delim b) (s : List α) :
    tokens delim (gap ++ s) = tokens delim s := by
  induction gap with
  | nil => rfl
  | cons b bs ih =>
    have hb : delim b := hgap b List.mem_cons_self
    rw [List.cons_append, tokens_cons_delim hb, ih fun c hc => hgap c (List.mem_cons_of_mem _ hc)]

theorem tokens_token_append {token rest : List α} (htoken : ∀ b ∈ token, delim b = false)
    (hne : token ≠ []) (hrest : ∀ b ∈ rest.head?, delim b) :
    tokens delim (token ++ rest) = token :: tokens delim rest := by
  cases rest with
  | nil => simp [tokens, List.splitOnP_eq_singleton htoken, hne]
  | cons b s =>
    have hb : delim b := hrest b rfl
    rw [tokens_cons_delim hb]
    simp [tokens, List.splitOnP_append_cons_of_forall_mem htoken b hb, hne]

/-- `strtok` returns the first of the tokens and leaves the others. -/
theorem tokens_eq_strtok (s : List α) :
    tokens delim s =
      match strtok delim s with
      | none => []
      | some (token, rest) => token :: tokens delim rest := by
  have hgap : ∀ b ∈ s.takeWhile delim, delim b := fun b hb => List.mem_takeWhile_imp hb
  have hs := tokens_append_delims hgap (s.dropWhile delim)
  rw [List.takeWhile_append_dropWhile] at hs
  rw [hs, strtok]
  cases hstart : s.dropWhile delim with
  | nil => rfl
  | cons b bs =>
    have hb : delim b = false := by
      have h := List.head?_dropWhile_not delim s
      simpa [hstart] using h
    have htoken : ∀ c ∈ (b :: bs).takeWhile (fun c => !delim c), delim c = false := fun c hc => by
      simpa using List.mem_takeWhile_imp hc
    have hne : (b :: bs).takeWhile (fun c => !delim c) ≠ [] := by simp [hb]
    have hrest : ∀ d ∈ ((b :: bs).dropWhile fun c => !delim c).head?, delim d := fun d hd => by
      have h := List.head?_dropWhile_not (fun c => !delim c) (b :: bs)
      rw [Option.mem_def.mp hd] at h
      simpa using h
    have hsplit := tokens_token_append htoken hne hrest
    rw [List.takeWhile_append_dropWhile] at hsplit
    rw [hsplit]
    -- dropping the delimiter that ended the token loses no token
    cases hleft : (b :: bs).dropWhile fun c => !delim c with
    | nil => simp only [hleft, List.tail_nil]
    | cons d ds =>
      have hd : delim d := hrest d (by rw [hleft]; rfl)
      simp only [hleft, List.tail_cons, tokens_cons_delim hd]

theorem strtok_token {gap token : List α} (hgap : ∀ b ∈ gap, delim b)
    (htoken : ∀ b ∈ token, delim b = false) (hne : token ≠ []) {b : α} (hb : delim b) (s : List α) :
    strtok delim (gap ++ (token ++ b :: s)) = some (token, s) := by
  obtain ⟨c, cs, rfl⟩ := List.exists_cons_of_ne_nil hne
  have hc : delim c = false := htoken c List.mem_cons_self
  have hpos : ∀ d ∈ c :: cs, (!delim d) = true := fun d hd => by simp [htoken d hd]
  have hdrop : (gap ++ (c :: cs ++ b :: s)).dropWhile delim = c :: (cs ++ b :: s) := by
    rw [List.dropWhile_append_of_pos hgap]
    simp [hc]
  rw [strtok, hdrop]
  have htake : (c :: (cs ++ b :: s)).takeWhile (fun d => !delim d) =
      c :: cs ++ (b :: s).takeWhile fun d => !delim d := List.takeWhile_append_of_pos hpos
  have hleft : (c :: (cs ++ b :: s)).dropWhile (fun d => !delim d) =
      (b :: s).dropWhile fun d => !delim d := List.dropWhile_append_of_pos hpos
  simp [htake, hleft, hb]

end Base
