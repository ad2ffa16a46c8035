/-
  Shell/Tools.lean --- the tools by name.
-/
import PocketAsm.Shell.Assemble
import PocketAsm.Shell.Emulate
import PocketAsm.Shell.Send

set_option autoImplicit false

namespace PocketAsm.Shell

/-- Runs a tool with its arguments. -/
def run (world : World) (files : Files) (tool : String) (args : List String) : Result :=
  if tool = assembleName then runTool (some "Assembly") (assembleTool args) world files
  else if tool = emulateName then runTool (some "Emulator") (emulateTool args) world files
  else if tool = sendName then runTool (sendLabel (commandOf args)) (sendTool args) world files
  else runTool none (throw .misuse) world files

end PocketAsm.Shell
