import InputMask.Mask

/-!
# Hooks made of actions

A hook of a mask may be any function. What it can do with the draft from outside is little: move or
set the selection, and set the text. A hook that is put together from such actions, done in order,
can be written down. Before a value is fitted, replacing and appending act on the value; afterwards
they act on the text of the draft.

Actions keep to what a fitting relies on, so the selection of an outcome lies in its text whatever
they do (`Mask.passage_of_actions`).
-/

set_option autoImplicit false

namespace InputMask

/-- One thing that a hook does. -/
inductive Action where
  /-- Moves the selection by a number of characters. -/
  | shift (δ : Int)
  /-- Sets the ends of the selection. -/
  | select (start stop : Int)
  /-- Sets the text of the draft. -/
  | setText (text : List Char)
  /-- Replaces every occurrence of a text, which is not empty, by another. -/
  | replace (old new : List Char)
  /-- Adds a text at the end. -/
  | append (text : List Char)

namespace Action

/-- Replaces the occurrences of a text from left to right, after passing over some characters. An
occurrence that overlaps one already replaced does not count. -/
def replaceFrom (old new : List Char) : Nat → List Char → List Char
  | _, [] => []
  | passed + 1, _ :: cs => replaceFrom old new passed cs
  | 0, c :: cs =>
    if old.isPrefixOf (c :: cs) then new ++ replaceFrom old new (old.length - 1) cs
    else c :: replaceFrom old new 0 cs

/-- Does an action before a value is fitted. -/
def doBefore : List Char × Draft → Action → List Char × Draft
  | (value, d), shift δ => (value, d.shift δ)
  | (value, d), select start stop => (value, d.select start stop)
  | (value, d), setText text => (value, d.withText text)
  | (value, d), replace old new => (replaceFrom old new 0 value, d)
  | (value, d), append text => (value ++ text, d)

/-- Does an action after a value was fitted. -/
def doAfter (d : Draft) : Action → Draft
  | shift δ => d.shift δ
  | select start stop => d.select start stop
  | setText text => d.withText text
  | replace old new => d.withText (replaceFrom old new 0 d.text)
  | append text => d.withText (d.text ++ text)

/-- The hook that does some actions, in order, before a value is fitted. -/
def beforeHook (actions : List Action) : BeforeHook :=
  fun value d => actions.foldl doBefore (value, d)

/-- The hook that does some actions, in order, after a value was fitted. -/
def afterHook (actions : List Action) : AfterHook := fun d => actions.foldl doAfter d

end Action

end InputMask
