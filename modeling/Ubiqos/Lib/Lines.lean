import Mathlib.Data.List.TakeWhile
import Mathlib.Data.List.Flatten

/-!
A text as lines, each ended by a separator that the last may lack, and a state that each line acts
on. What reads one entry of the state may leave out the lines that do not touch it.
-/

universe u v w

namespace Lines

variable {α : Type u} [DecidableEq α] (sep : α)

def lines : List α → List (List α)
  | [] => []
  | c :: rest =>
    if c = sep then [] :: lines rest
    else
      match lines rest with
      | [] => [[c]]
      | first :: more => (c :: first) :: more

def unlines (parts : List (List α)) : List α := parts.flatMap fun part => part ++ [sep]

variable {sep}

theorem lines_ended {part : List α} (plain : sep ∉ part) (rest : List α) :
    lines sep (part ++ sep :: rest) = part :: lines sep rest := by
  induction part with
  | nil => exact if_pos rfl
  | cons c part ih =>
    rw [List.mem_cons, not_or] at plain
    rw [List.cons_append, lines, if_neg (Ne.symm plain.1), ih plain.2]

theorem lines_last {part : List α} (plain : sep ∉ part) (some : part ≠ []) :
    lines sep part = [part] := by
  induction part with
  | nil => exact absurd rfl some
  | cons c part ih =>
    rw [List.mem_cons, not_or] at plain
    rw [lines, if_neg (Ne.symm plain.1)]
    cases part with
    | nil => rfl
    | cons d part => rw [ih plain.2 (List.cons_ne_nil d part)]

theorem lines_unlines {parts : List (List α)} (plain : ∀ part ∈ parts, sep ∉ part) :
    lines sep (unlines sep parts) = parts := by
  induction parts with
  | nil => rfl
  | cons part parts ih =>
    have first := plain part List.mem_cons_self
    have rest := ih fun other member => plain other (List.mem_cons_of_mem part member)
    rw [unlines, List.flatMap_cons, List.append_assoc, List.singleton_append, lines_ended first]
    exact congrArg (part :: ·) rest

theorem lines_first {text : List α} (some : text ≠ []) :
    lines sep text = text.takeWhile (fun c => c ≠ sep) ::
      lines sep ((text.dropWhile fun c => c ≠ sep).drop 1) := by
  induction text with
  | nil => exact absurd rfl some
  | cons c text ih =>
    by_cases ended : c = sep
    · simp [lines, ended]
    · rw [lines, if_neg ended, List.takeWhile_cons_of_pos (by simpa using ended),
        List.dropWhile_cons_of_pos (by simpa using ended)]
      by_cases last : text = []
      · subst last
        rfl
      · rw [ih last]

theorem plain_of_mem {text part : List α} (member : part ∈ lines sep text) : sep ∉ part := by
  induction text generalizing part with
  | nil => simp [lines] at member
  | cons c text ih =>
    rw [lines] at member
    split at member
    · rcases List.mem_cons.mp member with rfl | later
      · exact List.not_mem_nil
      · exact ih later
    · next more =>
        split at member
        · obtain rfl := List.mem_singleton.mp member
          simpa using Ne.symm more
        · next first rest split =>
            rcases List.mem_cons.mp member with rfl | later
            · have plain := ih (split ▸ List.mem_cons_self)
              simp [Ne.symm more, plain]
            · exact ih (split ▸ List.mem_cons_of_mem first later)

section Acts

variable {β : Type v} {σ : Type w} {γ : Type*} (act : σ → β → σ) (get : σ → γ)

def Apart : Prop := ∀ s t l, get s = get t → get (act s l) = get (act t l)

variable {act get}

theorem fold_congr (apart : Apart act get) (ls : List β) {s t : σ} (same : get s = get t) :
    get (ls.foldl act s) = get (ls.foldl act t) := by
  induction ls generalizing s t with
  | nil => exact same
  | cons l ls ih => exact ih (apart s t l same)

theorem fold_idle {ls : List β} (idle : ∀ l ∈ ls, ∀ s, get (act s l) = get s) (s : σ) :
    get (ls.foldl act s) = get s := by
  induction ls generalizing s with
  | nil => rfl
  | cons l ls ih =>
    exact (ih (fun m member => idle m (List.mem_cons_of_mem l member)) _).trans
      (idle l List.mem_cons_self s)

theorem fold_filter (apart : Apart act get) (keep : β → Bool) {ls : List β}
    (idle : ∀ l ∈ ls, keep l = false → ∀ s, get (act s l) = get s) (s : σ) :
    get ((ls.filter keep).foldl act s) = get (ls.foldl act s) := by
  induction ls generalizing s with
  | nil => rfl
  | cons l ls ih =>
    have rest := ih fun m member => idle m (List.mem_cons_of_mem l member)
    cases kept : keep l with
    | true =>
      rw [List.filter_cons_of_pos kept]
      exact rest (act s l)
    | false =>
      rw [List.filter_cons_of_neg (by simp [kept]), rest s, List.foldl_cons]
      exact fold_congr apart ls (idle l List.mem_cons_self kept s).symm

end Acts

end Lines
