import EventScript.Proofs.Inputs

/-!
What a successful run delivers. When a run ends with status zero and was not asked for help, its
input compiled without an error, the output is just what it compiled to, the listing is its listing,
and nothing else has changed. Every other run ends with status one.

        status 0   input compiles without an error, both files have a place
                   output = bytes,  listing = listing of the bytes,  errors = warnings shown
        status 1   anything else but help
-/

namespace EventScript.Cli

end EventScript.Cli
