import Headroom.Foundation.JsonObject

/-!
# The blocks of a conversation

The content of a message is a list of blocks, or no list. A block of a conversation has two places, that of its
message and its own.
-/

namespace Foundation

variable {messages : List Json} {message block : Json} {i j : ℕ}

/-- The blocks of a message. -/
def messageBlocks (message : Json) : List Json := (message.getArr? "content").getD []

/-- A block by the places of its message and of itself. -/
def blockAt (messages : List Json) (i j : ℕ) : Option Json := messages[i]?.bind fun m => (messageBlocks m)[j]?

theorem getArr?_insert_self {j : Json} {key : String} {items items' : List Json}
    (h : j.getArr? key = some items) : (j.insert key (.arr items')).getArr? key = some items' := by
  obtain ⟨value, hvalue, -⟩ := Option.bind_eq_some_iff.1 h
  rw [Json.getArr?, Json.get?_insert_self hvalue]
  rfl

theorem insert_getArr?_self {j : Json} {key : String} {items : List Json}
    (h : j.getArr? key = some items) : j.insert key (.arr items) = j := by
  obtain ⟨value, hvalue, harr⟩ := Option.bind_eq_some_iff.1 h
  cases value with
  | arr items' =>
    rw [Option.some.inj harr] at hvalue
    exact Json.insert_self hvalue
  | null | bool | num | str | obj => exact absurd harr nofun

/-- A message with other blocks has them. -/
theorem messageBlocks_insert {blocks blocks' : List Json} (h : message.getArr? "content" = some blocks) :
    messageBlocks (message.insert "content" (.arr blocks')) = blocks' := by
  rw [messageBlocks, getArr?_insert_self h, Option.getD_some]

theorem lt_length_of_blockAt (hat : blockAt messages i j = some block) : i < messages.length := by
  obtain ⟨message, hmessage, -⟩ := Option.bind_eq_some_iff.1 hat
  exact (List.getElem?_eq_some_iff.1 hmessage).1

/-- More messages move no block. -/
theorem blockAt_append (more : List Json) (hat : blockAt messages i j = some block) :
    blockAt (messages ++ more) i j = some block := by
  rw [blockAt, List.getElem?_append_left (lt_length_of_blockAt hat)]
  exact hat

end Foundation
