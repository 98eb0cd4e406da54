/- # KuttiDB.QueueStore.Exchange -- topic matching of an exchange

Topic matching as the source computes it: a bottom-up table over pattern words, one row per key word.
-/
import KuttiDB.QueueStore.Record

namespace KuttiDB.QueueStore

set_option autoImplicit false

/-! ## Topic matching -/

def topicWordsMax : Nat := 128

/-- The `.`-separated words of a key or pattern; there is always at least one. -/
def topicWords : Bytes → List Bytes
  | [] => [[]]
  | b :: rest =>
      if b = 46 then [] :: topicWords rest
      else
        match topicWords rest with
        | [] => [[b]]
        | word :: words => (b :: word) :: words

def hashWord : Bytes := [35]

def starWord : Bytes := [42]

/-- Seed row: with no key words left only a run of `#` matches. -/
def topicSeed : List Bytes → List Bool
  | [] => [true]
  | word :: rest =>
      let row := topicSeed rest
      (word == hashWord && row.headD false) :: row

/-- One row of the table from the row below it, for one key word. -/
def topicRow (keyWord : Bytes) : List Bytes → List Bool → List Bool
  | [], _ => [false]
  | word :: rest, below =>
      let row := topicRow keyWord rest below.tail
      let here :=
        if word == hashWord then row.headD false || below.headD false
        else if word == starWord then below.tail.headD false
        else word == keyWord && below.tail.headD false
      here :: row

def topicMatches (pattern key : Bytes) : Bool :=
  let words := topicWords pattern
  if words.length > topicWordsMax then false
  else ((topicWords key).foldr (fun keyWord below => topicRow keyWord words below)
    (topicSeed words)).headD false

end KuttiDB.QueueStore
