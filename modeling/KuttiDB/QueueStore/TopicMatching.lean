/- # KuttiDB.QueueStore.TopicMatching -- the table of the topic matcher decides word matching

`topic_matches` fills one row of flags for each word of the key, from the last word to the first. The
flag at a pattern word stands for one question: does the pattern from that word on match the words
of the key read so far? `TopicMatch` is that question without the table:

* a plain word takes an equal word;
* `*` takes one word, whatever it is, the empty word included;
* `#` takes any run of words, also the empty run.

`topicMatches_iff` joins the two for every key and every pattern the word limit lets through. The
source reads words out of a string by position (`topic_word_at`); `topicWords` are all of them, and
`topicWords_eq_splitOn` says that these are the pieces between the dots.
-/
import KuttiDB.QueueStore.Exchange

namespace KuttiDB.QueueStore

set_option autoImplicit false

/-! ## Words -/

theorem topicWords_ne_nil (s : Bytes) : topicWords s ≠ [] := by
  cases s with
  | nil => simp [topicWords]
  | cons b rest =>
      rw [topicWords]
      split
      · simp
      · split <;> simp

theorem topicWords_eq_splitOn : ∀ s : Bytes, topicWords s = s.splitOn 46
  | [] => (List.splitOn_nil 46).symm
  | b :: rest => by
      have later := topicWords_eq_splitOn rest
      rw [List.splitOn, List.splitOnP_cons_eq_if_modifyHead, ← List.splitOn, ← later, topicWords]
      by_cases dot : b = 46
      · simp [dot]
      · cases words : topicWords rest with
        | nil => exact absurd words (topicWords_ne_nil rest)
        | cons word others => simp [dot]

/-! ## Matching -/

/-- A list of key words matched by a list of pattern words. -/
inductive TopicMatch : List Bytes → List Bytes → Prop where
  | done : TopicMatch [] []
  | word (word : Bytes) {pattern key : List Bytes} (rest : TopicMatch pattern key) :
      TopicMatch (word :: pattern) (word :: key)
  | star (word : Bytes) {pattern key : List Bytes} (rest : TopicMatch pattern key) :
      TopicMatch (starWord :: pattern) (word :: key)
  | hash (skipped : List Bytes) {pattern key : List Bytes} (rest : TopicMatch pattern key) :
      TopicMatch (hashWord :: pattern) (skipped ++ key)

section Match

variable {word keyWord : Bytes} {pattern key : List Bytes}

theorem starWord_ne_hashWord : starWord ≠ hashWord := by decide

/-- The three ways a pattern word takes its part of the key. -/
theorem topicMatch_cases : TopicMatch (word :: pattern) key ↔
    (∃ rest, key = word :: rest ∧ TopicMatch pattern rest) ∨
    (word = starWord ∧ ∃ first rest, key = first :: rest ∧ TopicMatch pattern rest) ∨
    (word = hashWord ∧ ∃ skipped rest, key = skipped ++ rest ∧ TopicMatch pattern rest) := by
  constructor
  · intro matched
    cases matched with
    | word _ rest => exact Or.inl ⟨_, rfl, rest⟩
    | star first rest => exact Or.inr (Or.inl ⟨rfl, first, _, rfl, rest⟩)
    | hash skipped rest => exact Or.inr (Or.inr ⟨rfl, skipped, _, rfl, rest⟩)
  · rintro (⟨rest, rfl, matched⟩ | ⟨rfl, first, rest, rfl, matched⟩ | ⟨rfl, skipped, rest, rfl, matched⟩)
    · exact .word word matched
    · exact .star first matched
    · exact .hash skipped matched

theorem topicMatch_nil_right : TopicMatch (word :: pattern) [] ↔
    word = hashWord ∧ TopicMatch pattern [] := by
  rw [topicMatch_cases]
  constructor
  · rintro (⟨_, eq, _⟩ | ⟨_, _, _, eq, _⟩ | ⟨isHash, skipped, rest, eq, matched⟩)
    · cases eq
    · cases eq
    · obtain ⟨-, rfl⟩ := List.append_eq_nil_iff.mp eq.symm
      exact ⟨isHash, matched⟩
  · rintro ⟨isHash, matched⟩
    exact Or.inr (Or.inr ⟨isHash, [], [], rfl, matched⟩)

theorem topicMatch_nil_left : ¬TopicMatch [] (keyWord :: key) := fun matched => by cases matched

/-- `#` takes nothing, or one word more. -/
theorem topicMatch_hash : TopicMatch (hashWord :: pattern) (keyWord :: key) ↔
    TopicMatch pattern (keyWord :: key) ∨ TopicMatch (hashWord :: pattern) key := by
  constructor
  · intro matched
    rcases topicMatch_cases.mp matched with
      ⟨rest, eq, later⟩ | ⟨isStar, -⟩ | ⟨-, skipped, rest, eq, later⟩
    · obtain ⟨rfl, rfl⟩ := List.cons.inj eq
      exact Or.inr (.hash [] later)
    · exact absurd isStar.symm starWord_ne_hashWord
    · cases skipped with
      | nil => exact Or.inl (eq ▸ later)
      | cons first others =>
          obtain ⟨rfl, rfl⟩ := List.cons.inj eq
          exact Or.inr (.hash others later)
  · rintro (matched | matched)
    · exact .hash [] matched
    · rcases topicMatch_cases.mp matched with
        ⟨rest, rfl, later⟩ | ⟨isStar, -⟩ | ⟨-, skipped, rest, rfl, later⟩
      · exact .hash [keyWord, hashWord] later
      · exact absurd isStar.symm starWord_ne_hashWord
      · exact .hash (keyWord :: skipped) later

theorem topicMatch_star : TopicMatch (starWord :: pattern) (keyWord :: key) ↔
    TopicMatch pattern key := by
  refine ⟨fun matched => ?_, .star keyWord⟩
  rcases topicMatch_cases.mp matched with
    ⟨rest, eq, later⟩ | ⟨-, first, rest, eq, later⟩ | ⟨isHash, -⟩
  · exact (List.cons.inj eq).2 ▸ later
  · exact (List.cons.inj eq).2 ▸ later
  · exact absurd isHash starWord_ne_hashWord

theorem topicMatch_word (noHash : word ≠ hashWord) (noStar : word ≠ starWord) :
    TopicMatch (word :: pattern) (keyWord :: key) ↔ word = keyWord ∧ TopicMatch pattern key := by
  constructor
  · intro matched
    rcases topicMatch_cases.mp matched with ⟨rest, eq, later⟩ | ⟨isStar, -⟩ | ⟨isHash, -⟩
    · obtain ⟨rfl, rfl⟩ := List.cons.inj eq
      exact ⟨rfl, later⟩
    · exact absurd isStar noStar
    · exact absurd isHash noHash
  · rintro ⟨rfl, matched⟩
    exact .word word matched

end Match

/-! ## The table -/

/-- Each flag of the row stands for one suffix of the pattern. -/
def RowGood (key : List Bytes) : List Bytes → List Bool → Prop
  | [], row => ∃ flag, row = [flag] ∧ (flag = true ↔ TopicMatch [] key)
  | word :: pattern, row =>
      ∃ flag rest, row = flag :: rest ∧ (flag = true ↔ TopicMatch (word :: pattern) key) ∧
        RowGood key pattern rest

theorem RowGood.head {key : List Bytes} : ∀ {pattern : List Bytes} {row : List Bool},
    RowGood key pattern row → (row.headD false = true ↔ TopicMatch pattern key)
  | [], _, ⟨flag, eq, means⟩ => by rw [eq]; exact means
  | _ :: _, _, ⟨flag, rest, eq, means, _⟩ => by rw [eq]; exact means

theorem topicSeed_good : ∀ pattern : List Bytes, RowGood [] pattern (topicSeed pattern)
  | [] => ⟨true, rfl, by simp [TopicMatch.done]⟩
  | word :: pattern => by
      have later := topicSeed_good pattern
      refine ⟨_, _, rfl, ?_, later⟩
      rw [topicMatch_nil_right, ← later.head, Bool.and_eq_true, beq_iff_eq]

theorem topicRow_good (keyWord : Bytes) {key : List Bytes} :
    ∀ {pattern : List Bytes} {below : List Bool}, RowGood key pattern below →
      RowGood (keyWord :: key) pattern (topicRow keyWord pattern below)
  | [], _, _ => ⟨false, rfl, by simp [topicMatch_nil_left]⟩
  | word :: pattern, _, ⟨flag, below, rfl, means, good⟩ => by
      have row := topicRow_good keyWord good
      refine ⟨_, _, rfl, ?_, row⟩
      simp only [List.tail_cons, List.headD_cons]
      by_cases isHash : word = hashWord
      · subst isHash
        rw [topicMatch_hash, ← row.head, ← means]
        simp
      · by_cases isStar : word = starWord
        · subst isStar
          rw [topicMatch_star, ← good.head]
          simp [isHash]
        · rw [topicMatch_word isHash isStar, ← good.head]
          simp [isHash, isStar]

theorem topicRows_good (pattern : List Bytes) : ∀ key : List Bytes,
    RowGood key pattern
      (key.foldr (fun keyWord below => topicRow keyWord pattern below) (topicSeed pattern))
  | [] => topicSeed_good pattern
  | keyWord :: key => topicRow_good keyWord (topicRows_good pattern key)

/-- **The table decides word matching.** The words of pattern and key are the pieces between their
dots. -/
theorem topicMatches_iff (pattern key : Bytes) (few : (pattern.splitOn 46).length ≤ topicWordsMax) :
    topicMatches pattern key = true ↔ TopicMatch (pattern.splitOn 46) (key.splitOn 46) := by
  rw [← topicWords_eq_splitOn] at few
  rw [← topicWords_eq_splitOn, ← topicWords_eq_splitOn, topicMatches]
  simp only [if_neg (Nat.not_lt.mpr few)]
  exact (topicRows_good (topicWords pattern) (topicWords key)).head

/-- `a.#` takes `a`, `*` takes the empty key and `a.*` does not take `a`. -/
theorem topicMatches_iff_wildcards :
    (([97, 46, 35] : Bytes).splitOn 46).length ≤ topicWordsMax ∧
      TopicMatch (([97, 46, 35] : Bytes).splitOn 46) (([97] : Bytes).splitOn 46) ∧
      TopicMatch (([42] : Bytes).splitOn 46) (([] : Bytes).splitOn 46) ∧
      ¬TopicMatch (([97, 46, 42] : Bytes).splitOn 46) (([97] : Bytes).splitOn 46) :=
  ⟨by decide, (topicMatches_iff [97, 46, 35] [97] (by decide)).mp (by decide),
    (topicMatches_iff [42] [] (by decide)).mp (by decide),
    fun matched => absurd ((topicMatches_iff [97, 46, 42] [97] (by decide)).mpr matched) (by decide)⟩

end KuttiDB.QueueStore
