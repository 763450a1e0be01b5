import EventScript.Command.Table

/-!
The built-in command set: flow control, variables, flags, text and sound, map and actors, inventory.
-/

namespace EventScript.Command

/-- The entries of the built-in command set. -/
def builtinEntries : List Entry := [
  -- flow control
  ⟨"END", 0x00, []⟩,
  ⟨"JUMP", 0x10, ["l"]⟩,
  ⟨"CALL", 0x11, ["l"]⟩,
  ⟨"RETURN", 0x12, []⟩,
  ⟨"IF_EQUAL", 0x13, ["v", "e", "l"]⟩,
  ⟨"IF_LESS", 0x14, ["v", "####", "l"]⟩,
  ⟨"IF_FLAG", 0x15, ["##", "l"]⟩,
  -- variables
  ⟨"SET", 0x01, ["d", "#"]⟩,
  ⟨"INT", 0x02, ["d", "####"]⟩,
  ⟨"STRING", 0x03, ["d", "s"]⟩,
  ⟨"COPY", 0x04, ["v", "e"]⟩,
  ⟨"ADD", 0x05, ["v", "####"]⟩,
  ⟨"SUB", 0x06, ["v", "####"]⟩,
  ⟨"RANDOM", 0x07, ["v", "##"]⟩,
  -- flags
  ⟨"SET_FLAG", 0x08, ["##"]⟩,
  ⟨"CLEAR_FLAG", 0x09, ["##"]⟩,
  -- text and sound
  ⟨"TEXT", 0x20, ["s"]⟩,
  ⟨"MESSAGE", 0x21, ["e"]⟩,
  ⟨"YES_NO", 0x22, ["s", "l"]⟩,
  ⟨"PLAY_SOUND", 0x23, ["#"]⟩,
  ⟨"PLAY_MUSIC", 0x24, ["#"]⟩,
  ⟨"WAIT", 0x25, ["##"]⟩,
  -- map and actors
  ⟨"WARP", 0x30, ["##", "##", "##"]⟩,
  ⟨"MOVE_NPC", 0x31, ["#", "#", "#"]⟩,
  ⟨"FACE", 0x32, ["#", "#"]⟩,
  ⟨"FREEZE_PLAYER", 0x33, []⟩,
  ⟨"RELEASE_PLAYER", 0x34, []⟩,
  -- inventory
  ⟨"GIVE_ITEM", 0x40, ["#", "#"]⟩,
  ⟨"TAKE_ITEM", 0x41, ["#", "#"]⟩,
  ⟨"HAS_ITEM", 0x42, ["#", "l"]⟩,
  ⟨"GIVE_MONEY", 0x43, ["###"]⟩,
  ⟨"START_BATTLE", 0x50, ["##", "#"]⟩]

/-- The built-in command table. -/
def Table.builtin : Table :=
  match load builtinEntries with
  | .ok table => table
  | .error _ => ∅

/-- The built-in command set has no bad entry. -/
theorem Table.load_builtinEntries : Table.load builtinEntries = .ok Table.builtin := by
  have loads : (Table.load builtinEntries).toBool = true := by decide +kernel
  unfold Table.builtin
  cases h : Table.load builtinEntries with
  | error e => simp [h, Except.toBool] at loads
  | ok table => rfl

end EventScript.Command
