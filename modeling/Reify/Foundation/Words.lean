import Mathlib.Data.List.DropRight

/-!
# Words of a text

A text is split into words at every run of separators, and trimmed of the separators at its
ends.  Words joined by one separator each are split back.

## Main definitions

* `words`: the words of a text.
* `trim`, `Tight`: the text without the separators at its ends.
* `unwords`: words joined by a separator.

## Main results

* `words_unwords`: joining and splitting give the words back.
* `trim_eq_self`, `tight_trim`.
-/

namespace Foundation

variable {α : Type*}

/-! ## Words -/

/-- The words between the separators. -/
def words (sep : α → Bool) (s : List α) : List (List α) :=
  (s.splitOnP sep).filter fun w => !w.isEmpty

/-- A text that is one word. -/
structure IsWord (sep : α → Bool) (w : List α) : Prop where
  ne_nil : w ≠ []
  plain : ∀ c ∈ w, sep c = false

variable {sep : α → Bool} {w s : List α} {c : α}

@[simp] theorem words_nil : words sep [] = [] := by simp [words]

theorem words_of_isWord (hw : IsWord sep w) : words sep w = [w] := by
  rw [words, List.splitOnP_eq_singleton hw.plain]
  simp [hw.ne_nil]

theorem words_append_cons (hw : IsWord sep w) (hc : sep c = true) (s : List α) :
    words sep (w ++ c :: s) = w :: words sep s := by
  rw [words, List.splitOnP_append_cons_of_forall_mem hw.plain c hc, List.filter_cons_of_pos]
  · rfl
  · simp [hw.ne_nil]

theorem words_cons_of_sep (hc : sep c = true) (s : List α) : words sep (c :: s) = words sep s := by
  have hsplit : (c :: s).splitOnP sep = [] :: s.splitOnP sep := by
    rw [List.splitOnP_cons_eq_if_modifyHead, if_pos hc]
  rw [words, hsplit, List.filter_cons_of_neg (by simp)]
  rfl

/-- A part between separators has none, and its elements are the text's. -/
theorem mem_splitOnP (h : w ∈ s.splitOnP sep) : ∀ c ∈ w, sep c = false ∧ c ∈ s := by
  induction s generalizing w with
  | nil =>
    rw [List.splitOnP_nil, List.mem_singleton] at h
    exact fun c hc => by simp [h] at hc
  | cons a s ih =>
    have older {w : List α} (hw : w ∈ s.splitOnP sep) : ∀ c ∈ w, sep c = false ∧ c ∈ a :: s :=
      fun c hc => ⟨(ih hw c hc).1, List.mem_cons_of_mem a (ih hw c hc).2⟩
    rw [List.splitOnP_cons_eq_if_modifyHead] at h
    by_cases ha : sep a = true
    · rw [if_pos ha] at h
      rcases List.mem_cons.mp h with rfl | h
      · exact nofun
      · exact older h
    · rw [if_neg ha] at h
      obtain ⟨first, rest, hsplit⟩ := List.exists_cons_of_ne_nil (List.splitOnP_ne_nil sep s)
      rw [hsplit, List.modifyHead_cons] at h
      rcases List.mem_cons.mp h with rfl | h
      · intro c hc
        rcases List.mem_cons.mp hc with rfl | hc
        · exact ⟨by simpa using ha, List.mem_cons_self⟩
        · exact older (by rw [hsplit]; exact List.mem_cons_self) c hc
      · exact older (by rw [hsplit]; exact List.mem_cons_of_mem first h)

theorem isWord_of_mem_words (h : w ∈ words sep s) : IsWord sep w := by
  obtain ⟨hsplit, hne⟩ := List.mem_filter.mp h
  exact ⟨by simpa using hne, fun c hc => (mem_splitOnP hsplit c hc).1⟩

theorem mem_of_mem_words (h : w ∈ words sep s) (hc : c ∈ w) : c ∈ s :=
  (mem_splitOnP (List.mem_filter.mp h).1 c hc).2

/-- Words with a separator in front of each but the first. -/
def unwords (c : α) (w : List α) (ws : List (List α)) : List α := w ++ ws.flatMap (c :: ·)

/-- **Joined words are split back.** -/
theorem words_unwords (hc : sep c = true) (hw : IsWord sep w) {ws : List (List α)}
    (hws : ∀ w ∈ ws, IsWord sep w) : words sep (unwords c w ws) = w :: ws := by
  unfold unwords
  induction ws generalizing w with
  | nil =>
    rw [List.flatMap_nil, List.append_nil]
    exact words_of_isWord hw
  | cons v ws ih =>
    obtain ⟨hv, hws⟩ := List.forall_mem_cons.mp hws
    rw [List.flatMap_cons, List.cons_append, words_append_cons hw hc, ih hv hws]

/-! ## Trimming -/

/-- The text without the separators at its start. -/
def trimStart (sep : α → Bool) (s : List α) : List α := s.dropWhile sep

/-- The text without the separators at its ends. -/
def trim (sep : α → Bool) (s : List α) : List α := (trimStart sep s).rdropWhile sep

/-- A text with no separator at its ends. -/
structure Tight (sep : α → Bool) (s : List α) : Prop where
  head : ∀ c ∈ s.head?, sep c = false
  last : ∀ c ∈ s.getLast?, sep c = false

theorem trimStart_eq_self (h : ∀ c ∈ s.head?, sep c = false) : trimStart sep s = s := by
  cases s with
  | nil => rfl
  | cons c s =>
    have hc := h c rfl
    rw [trimStart, List.dropWhile_cons_of_neg (by simp [hc])]

theorem rdropWhile_eq_self (h : ∀ c ∈ s.getLast?, sep c = false) : s.rdropWhile sep = s := by
  rw [List.rdropWhile_eq_self_iff]
  intro hne
  have hlast := h (s.getLast hne) (List.getLast?_eq_some_getLast hne)
  simp [hlast]

theorem trim_eq_self (h : Tight sep s) : trim sep s = s := by
  rw [trim, trimStart_eq_self h.head, rdropWhile_eq_self h.last]

theorem head_trimStart : ∀ c ∈ (trimStart sep s).head?, sep c = false := by
  intro c hc
  have hhead := List.head?_dropWhile_not sep s
  have hsome : (s.dropWhile sep).head? = some c := hc
  rw [hsome] at hhead
  exact hhead

theorem tight_trim : Tight sep (trim sep s) := by
  constructor
  · intro c hc
    -- the trimmed text is a prefix of what `trimStart` leaves
    obtain ⟨tail, htail⟩ := List.rdropWhile_prefix sep (trimStart sep s)
    apply @head_trimStart _ sep s c
    rw [← htail, List.head?_append]
    exact Option.mem_def.mpr (by rw [show (List.rdropWhile sep (trimStart sep s)).head? = some c from hc]; rfl)
  · intro c hc
    have hne : trim sep s ≠ [] := fun hnil => by simp [hnil] at hc
    have hlast := List.rdropWhile_last_not sep (trimStart sep s) hne
    have heq : (trim sep s).getLast hne = c := by
      rw [List.getLast?_eq_some_getLast hne] at hc
      exact Option.some.inj hc
    rw [← heq]
    exact Bool.not_eq_true _ |>.mp hlast

theorem mem_of_mem_trim (h : c ∈ trim sep s) : c ∈ s :=
  (List.dropWhile_sublist sep).subset ((List.rdropWhile_prefix sep _).subset h)

/-- A text that does not start with a separator starts with its first word. -/
theorem words_eq_cons (hne : s ≠ []) (hhead : ∀ c ∈ s.head?, sep c = false) :
    ∃ w rest, s = w ++ rest ∧ IsWord sep w ∧ (∀ c ∈ rest.head?, sep c = true) ∧
      words sep s = w :: words sep rest := by
  have hplain : ∀ c ∈ s.takeWhile fun c => !sep c, sep c = false := by
    intro c hc
    simpa using List.mem_takeWhile_imp hc
  have hword : IsWord sep (s.takeWhile fun c => !sep c) := by
    refine ⟨?_, hplain⟩
    cases s with
    | nil => exact absurd rfl hne
    | cons c s => simp [hhead c rfl]
  have hsplit : s.takeWhile (fun c => !sep c) ++ s.dropWhile (fun c => !sep c) = s :=
    List.takeWhile_append_dropWhile
  have hrest : ∀ c ∈ (s.dropWhile fun c => !sep c).head?, sep c = true := by
    intro c hc
    simpa using @head_trimStart _ (fun c => !sep c) s c hc
  refine ⟨_, _, hsplit.symm, hword, hrest, ?_⟩
  cases hdrop : s.dropWhile fun c => !sep c with
  | nil =>
    rw [hdrop, List.append_nil] at hsplit
    rw [words_nil, hsplit]
    exact words_of_isWord (hsplit ▸ hword)
  | cons c t =>
    rw [hdrop] at hsplit hrest
    conv_lhs => rw [← hsplit]
    rw [words_append_cons hword (hrest c rfl), words_cons_of_sep (hrest c rfl)]

/-- A text is tight when its parts are, where they meet its ends. -/
theorem tight_append {u v : List α} (hu : u ≠ []) (hhead : ∀ c ∈ u.head?, sep c = false)
    (hv : v ≠ []) (hlast : ∀ c ∈ v.getLast?, sep c = false) : Tight sep (u ++ v) := by
  constructor
  · rw [List.head?_append_of_ne_nil u hu]
    exact hhead
  · rw [List.getLast?_append_of_ne_nil u hv]
    exact hlast

theorem IsWord.tight (hw : IsWord sep w) : Tight sep w :=
  ⟨fun c hc => hw.plain c (List.mem_of_head? hc), fun c hc => hw.plain c (List.mem_of_getLast? hc)⟩

/-- Joined words have no separator at their ends. -/
theorem tight_unwords (hw : IsWord sep w) {ws : List (List α)} (hws : ∀ w ∈ ws, IsWord sep w) :
    Tight sep (unwords c w ws) := by
  rcases List.eq_nil_or_concat ws with rfl | ⟨front, v, rfl⟩
  · rw [unwords, List.flatMap_nil, List.append_nil]
    exact hw.tight
  · have hv : IsWord sep v := hws v (by simp)
    have heq : unwords c w (front.concat v) = (unwords c w front ++ [c]) ++ v := by
      simp [unwords]
    rw [heq]
    apply tight_append _ _ hv.ne_nil hv.tight.last
    · simp
    · have hhead : (unwords c w front ++ [c]).head? = w.head? := by
        rw [unwords, List.append_assoc, List.head?_append_of_ne_nil w hw.ne_nil]
      rw [hhead]
      exact hw.tight.head

theorem unwords_ne_nil (hw : IsWord sep w) (ws : List (List α)) : unwords c w ws ≠ [] := by
  simp [unwords, hw.ne_nil]

theorem mem_unwords {ws : List (List α)} {d : α} (h : d ∈ unwords c w ws) :
    d = c ∨ ∃ v ∈ w :: ws, d ∈ v := by
  rcases List.mem_append.mp h with hd | hd
  · exact Or.inr ⟨w, List.mem_cons_self, hd⟩
  · obtain ⟨v, hv, hd⟩ := List.mem_flatMap.mp hd
    rcases List.mem_cons.mp hd with rfl | hd
    · exact Or.inl rfl
    · exact Or.inr ⟨v, List.mem_cons_of_mem w hv, hd⟩

end Foundation
